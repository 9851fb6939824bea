import Mathlib.Algebra.Group.Basic
import Mathlib.Data.List.Basic

/-!
# Chained checksums of two words

A checksum of two words runs over a text of words, two at a time, adding each word and the
other half of the sum. For fixed words a round can be undone, and for a fixed sum it tells apart
any two words. So a checksum tells apart texts that differ in one word, however long they are,
and wherever the checksum is cut into pieces.
-/

namespace Durable.Checksum

/-! ## Sums over words -/

section Words

variable {G : Type*} [AddCommGroup G]

/-- One round. -/
def round (s : G × G) (w v : G) : G × G :=
  (s.1 + w + s.2, s.2 + v + (s.1 + w + s.2))

/-- The checksum, continued from `s`. A single word at the end is not read. -/
def run : List G → G × G → G × G
  | w :: v :: rest, s => run rest (round s w v)
  | _, s => s

@[simp] theorem run_nil (s : G × G) : run [] s = s := rfl

@[simp] theorem run_cons_cons (w v : G) (rest : List G) (s : G × G) :
    run (w :: v :: rest) s = run rest (round s w v) := rfl

theorem round_injective {w v : G} {s t : G × G} (h : round s w v = round t w v) : s = t := by
  obtain ⟨hfst, hsnd⟩ := Prod.mk.inj h
  -- the second half first: the first half of the sum is in both
  rw [hfst] at hsnd
  have hsecond : s.2 = t.2 := add_right_cancel (add_right_cancel hsnd)
  rw [hsecond] at hfst
  exact Prod.ext (add_right_cancel (add_right_cancel hfst)) hsecond

theorem round_ne_left {w w' v : G} (s : G × G) (h : w ≠ w') : round s w v ≠ round s w' v := by
  intro heq
  have hfst := (Prod.mk.inj heq).1
  exact h (add_left_cancel (add_right_cancel hfst))

theorem round_ne_right {w v v' : G} (s : G × G) (h : v ≠ v') : round s w v ≠ round s w v' := by
  intro heq
  have hsnd := (Prod.mk.inj heq).2
  exact h (add_left_cancel (add_right_cancel hsnd))

theorem run_injective (l : List G) {s t : G × G} (h : run l s = run l t) : s = t := by
  induction l, s using run.induct generalizing t with
  | case1 w v rest s ih => exact round_injective (ih h)
  | case2 l s hl =>
    match l, hl with
    | [], _ => exact h
    | [w], _ => exact h
    | w :: v :: rest, hl => exact (hl w v rest rfl).elim

theorem run_append {l : List G} (hl : 2 ∣ l.length) (l' : List G) (s : G × G) :
    run (l ++ l') s = run l' (run l s) := by
  induction l, s using run.induct with
  | case1 w v rest s ih =>
    have hrest : 2 ∣ rest.length := by
      simp only [List.length_cons] at hl
      omega
    rw [List.cons_append, List.cons_append, run_cons_cons, run_cons_cons, ih hrest]
  | case2 l s h =>
    match l, h, hl with
    | [], _, _ => rfl
    | [w], _, hl => simp at hl
    | w :: v :: rest, h, _ => exact (h w v rest rfl).elim

/-- Texts that differ in one word have different checksums. -/
theorem run_ne {w w' : G} (h : w ≠ w') (a b : List G) (hlength : 2 ∣ (a ++ w :: b).length)
    (s : G × G) : run (a ++ w :: b) s ≠ run (a ++ w' :: b) s := by
  induction a, s using run.induct with
  | case1 x y rest s ih =>
    have hrest : 2 ∣ (rest ++ w :: b).length := by
      simp only [List.length_cons, List.cons_append] at hlength
      omega
    exact ih hrest
  | case2 a s ha =>
    match a, ha with
    | [], _ =>
      match b with
      | [] => simp at hlength
      | v :: b =>
        intro heq
        exact round_ne_left s h (run_injective b heq)
    | [x], _ =>
      intro heq
      exact round_ne_right s h (run_injective b heq)
    | x :: y :: rest, ha => exact (ha x y rest rfl).elim

end Words

/-! ## Words of a text -/

section Text

variable {β G : Type*} (word : β → β → β → β → G)

/-- The words of a text. What is left over at its end is not read. -/
def words : List β → List G
  | a :: b :: c :: d :: rest => word a b c d :: words rest
  | _ => []

@[simp] theorem words_nil : words word [] = [] := rfl

/-- Induction over the words of a text. -/
theorem words_induction {P : List β → Prop} (nil : P [])
    (cons : ∀ a b c d rest, P rest → P (a :: b :: c :: d :: rest)) :
    ∀ l : List β, 4 ∣ l.length → P l
  | [], _ => nil
  | [_], h | [_, _], h | [_, _, _], h => by simp at h
  | a :: b :: c :: d :: rest, h => by
    have hrest : 4 ∣ rest.length := by
      simp only [List.length_cons] at h
      omega
    exact cons a b c d rest (words_induction nil cons rest hrest)

theorem words_append {l : List β} (h : 4 ∣ l.length) (l' : List β) :
    words word (l ++ l') = words word l ++ words word l' := by
  refine words_induction (P := fun l => words word (l ++ l') = words word l ++ words word l') rfl
    ?_ l h
  intro a b c d rest ih
  simp only [List.cons_append, words, ih]

theorem length_words {l : List β} (h : 4 ∣ l.length) : 4 * (words word l).length = l.length := by
  refine words_induction (P := fun l => 4 * (words word l).length = l.length) rfl ?_ l h
  intro a b c d rest ih
  simp only [words, List.length_cons]
  omega

theorem even_words {l : List β} (h : 8 ∣ l.length) : 2 ∣ (words word l).length := by
  have hlength := length_words word (l := l) (Nat.dvd_trans (by decide) h)
  omega

/-- Two texts differ in one aligned word. -/
def Replaced (l l' : List β) : Prop :=
  ∃ a w w' b, l = a ++ w ++ b ∧ l' = a ++ w' ++ b ∧ w.length = 4 ∧ w'.length = 4 ∧ w ≠ w' ∧
    4 ∣ a.length

variable {l l' : List β}

theorem Replaced.length (h : Replaced l l') : l.length = l'.length := by
  obtain ⟨a, w, w', b, rfl, rfl, hw, hw', -⟩ := h
  simp [hw, hw']

theorem Replaced.ne (h : Replaced l l') : l ≠ l' := by
  obtain ⟨a, w, w', b, rfl, rfl, -, -, hne, -⟩ := h
  intro heq
  exact hne (List.append_cancel_left (List.append_cancel_right heq))

/-- The word that differs stands in one of two parts. -/
theorem Replaced.append {x y x' y' : List β} (h : Replaced (x ++ y) (x' ++ y'))
    (hlength : x.length = x'.length) (hx : 4 ∣ x.length) :
    (Replaced x x' ∧ y = y') ∨ (x = x' ∧ Replaced y y') := by
  obtain ⟨a, w, w', b, hl, hl', hw, hw', hne, ha⟩ := h
  by_cases hle : a.length + 4 ≤ x.length
  · -- the word ends in the first part
    left
    have hsplit : ∀ u : List β, u.length = 4 → ∀ p q : List β, p ++ q = a ++ u ++ b →
        p.length = x.length → p = a ++ u ++ b.take (x.length - (a.length + 4)) ∧
          q = b.drop (x.length - (a.length + 4)) := by
      intro u hu p q heq hp
      have hau : (a ++ u).length = a.length + 4 := by rw [List.length_append, hu]
      have htake : p = (a ++ u ++ b).take x.length := by rw [← heq, ← hp, List.take_left]
      have hdrop : q = (a ++ u ++ b).drop x.length := by rw [← heq, ← hp, List.drop_left]
      rw [List.take_append, List.take_of_length_le (by omega), hau] at htake
      rw [List.drop_append, List.drop_eq_nil_of_le (by omega), hau, List.nil_append] at hdrop
      exact ⟨htake, hdrop⟩
    obtain ⟨hxa, hyb⟩ := hsplit w hw x y hl rfl
    obtain ⟨hxa', hyb'⟩ := hsplit w' hw' x' y' hl' hlength.symm
    exact ⟨⟨a, w, w', _, hxa, hxa', hw, hw', hne, ha⟩, hyb.trans hyb'.symm⟩
  · -- the word begins after the first part
    right
    have hge : x.length ≤ a.length := by omega
    have hsplit : ∀ u p q : List β, p ++ q = a ++ u ++ b → p.length = x.length →
        p = a.take x.length ∧ q = a.drop x.length ++ u ++ b := by
      intro u p q heq hp
      have htake : p = (a ++ (u ++ b)).take x.length := by
        rw [← List.append_assoc, ← heq, ← hp, List.take_left]
      have hdrop : q = (a ++ (u ++ b)).drop x.length := by
        rw [← List.append_assoc, ← heq, ← hp, List.drop_left]
      rw [List.take_append_of_le_length hge] at htake
      rw [List.drop_append_of_le_length hge, ← List.append_assoc] at hdrop
      exact ⟨htake, hdrop⟩
    obtain ⟨hxa, hyb⟩ := hsplit w x y hl rfl
    obtain ⟨hxa', hyb'⟩ := hsplit w' x' y' hl' hlength.symm
    refine ⟨hxa.trans hxa'.symm, a.drop x.length, w, w', b, hyb, hyb', hw, hw', hne, ?_⟩
    rw [List.length_drop]
    omega

theorem Replaced.append_right {x x' : List β} (h : Replaced x x') (y : List β) :
    Replaced (x ++ y) (x' ++ y) := by
  obtain ⟨a, w, w', b, rfl, rfl, hw, hw', hne, ha⟩ := h
  exact ⟨a, w, w', b ++ y, by simp, by simp, hw, hw', hne, ha⟩

theorem Replaced.append_left {y y' : List β} (h : Replaced y y') {x : List β}
    (hx : 4 ∣ x.length) : Replaced (x ++ y) (x ++ y') := by
  obtain ⟨a, w, w', b, rfl, rfl, hw, hw', hne, ha⟩ := h
  refine ⟨x ++ a, w, w', b, by simp, by simp, hw, hw', hne, ?_⟩
  rw [List.length_append]
  omega

variable {word} [AddCommGroup G]

/-- A checksum finds a word that differs, if words are told apart at all. -/
theorem run_words_ne
    (hword : ∀ a b c d a' b' c' d', word a b c d = word a' b' c' d' →
      [a, b, c, d] = [a', b', c', d'])
    (h : Replaced l l') (hl : 8 ∣ l.length) (s : G × G) :
    run (words word l) s ≠ run (words word l') s := by
  obtain ⟨a, w, w', b, rfl, rfl, hw, hw', hne, ha⟩ := h
  have hlength := even_words word hl
  match w, w', hw, hw' with
  | [w₁, w₂, w₃, w₄], [v₁, v₂, v₃, v₄], _, _ =>
    have hword : word w₁ w₂ w₃ w₄ ≠ word v₁ v₂ v₃ v₄ := fun heq => hne (hword _ _ _ _ _ _ _ _ heq)
    rw [List.append_assoc, words_append word ha] at hlength ⊢
    rw [List.append_assoc, words_append word ha]
    exact run_ne hword _ _ hlength s

end Text

end Durable.Checksum

import Mathlib.Computability.RegularExpressions

/-!
# Regular expressions over characters

Character classes and paths: a path is one or more segments, each behind a separator, and it
matches exactly when all parts between the separators do.
-/

namespace Markup.Pattern

open RegularExpression

variable {α : Type*}

/-- One of some symbols. -/
def oneOf (l : List α) : RegularExpression α := (l.map char).sum

theorem mem_oneOf {l : List α} {w : List α} : w ∈ (oneOf l).matches' ↔ ∃ a ∈ l, w = [a] := by
  induction l with
  | nil =>
    have hzero : (oneOf ([] : List α)).matches' = 0 := rfl
    rw [hzero]
    simp
  | cons a l ih =>
    have hcons : (oneOf (a :: l)).matches' = {[a]} + (oneOf l).matches' := rfl
    rw [hcons, Language.mem_add, ih, List.exists_mem_cons_iff]
    rfl

/-- A symbol of one class, and then any number of another. -/
theorem mem_class_star {first rest : List α} {w : List α} :
    w ∈ (oneOf first * (oneOf rest).star).matches' ↔
      ∃ a l, w = a :: l ∧ a ∈ first ∧ ∀ b ∈ l, b ∈ rest := by
  rw [matches'_mul, matches'_star, Language.mem_mul]
  constructor
  · rintro ⟨_, hfirst, _, hrest, rfl⟩
    obtain ⟨a, ha, rfl⟩ := mem_oneOf.mp hfirst
    obtain ⟨words, rfl, hwords⟩ := Language.mem_kstar.mp hrest
    refine ⟨a, words.flatten, rfl, ha, ?_⟩
    intro b hb
    obtain ⟨word, hword, hmem⟩ := List.mem_flatten.mp hb
    obtain ⟨c, hc, rfl⟩ := mem_oneOf.mp (hwords word hword)
    exact List.mem_singleton.mp hmem ▸ hc
  · rintro ⟨a, l, rfl, ha, hl⟩
    refine ⟨[a], mem_oneOf.mpr ⟨a, ha, rfl⟩, l, ?_, rfl⟩
    refine Language.mem_kstar.mpr ⟨l.map ([·]), ?_, ?_⟩
    · induction l with
      | nil => rfl
      | cons b l ih =>
        rw [List.map_cons, List.flatten_cons, ← ih fun c hc => hl c (List.mem_cons_of_mem _ hc)]
        rfl
    · intro word hword
      obtain ⟨b, hb, rfl⟩ := List.mem_map.mp hword
      exact mem_oneOf.mpr ⟨b, hl b hb, rfl⟩

/-- One or more segments, each behind a separator. -/
def path (separator : α) (segment : RegularExpression α) : RegularExpression α :=
  char separator * segment * (char separator * segment).star

section Path

variable {x : α} {segment : RegularExpression α}

variable {w : List α}

theorem mem_behind :
    w ∈ (char x * segment).matches' ↔ ∃ p ∈ segment.matches', w = x :: p := by
  rw [matches'_mul, matches'_char, Language.mem_mul]
  constructor
  · rintro ⟨_, rfl, p, hp, rfl⟩
    exact ⟨p, hp, rfl⟩
  · rintro ⟨p, hp, rfl⟩
    exact ⟨[x], rfl, p, hp, rfl⟩

/-- Segments behind separators are the segments, put together by separators. -/
theorem flatten_behind (p : List α) (parts : List (List α)) :
    x :: p ++ (parts.map (x :: ·)).flatten = x :: [x].intercalate (p :: parts) := by
  induction parts generalizing p with
  | nil => simp
  | cons q parts ih =>
    rw [List.map_cons, List.flatten_cons, ih q]
    simp [List.intercalate]

theorem mem_path_iff_parts : w ∈ (path x segment).matches' ↔
    ∃ parts : List (List α), parts ≠ [] ∧ (∀ p ∈ parts, p ∈ segment.matches') ∧
      w = x :: [x].intercalate parts := by
  rw [path, matches'_mul, matches'_star, Language.mem_mul]
  constructor
  · rintro ⟨_, hhead, _, htail, rfl⟩
    obtain ⟨p, hp, rfl⟩ := mem_behind.mp hhead
    obtain ⟨words, rfl, hwords⟩ := Language.mem_kstar.mp htail
    clear htail
    have hparts : ∃ parts : List (List α),
        (∀ q ∈ parts, q ∈ segment.matches') ∧ words = parts.map (x :: ·) := by
      induction words with
      | nil => exact ⟨[], fun _ h => absurd h List.not_mem_nil, rfl⟩
      | cons word words ih =>
        obtain ⟨q, hq, rfl⟩ := mem_behind.mp (hwords word List.mem_cons_self)
        obtain ⟨parts, hall, rfl⟩ := ih fun y hy => hwords y (List.mem_cons_of_mem _ hy)
        exact ⟨q :: parts, List.forall_mem_cons.mpr ⟨hq, hall⟩, rfl⟩
    obtain ⟨parts, hall, rfl⟩ := hparts
    exact ⟨p :: parts, List.cons_ne_nil _ _, List.forall_mem_cons.mpr ⟨hp, hall⟩,
      flatten_behind p parts⟩
  · rintro ⟨parts, hne, hall, rfl⟩
    obtain ⟨p, parts, rfl⟩ := List.exists_cons_of_ne_nil hne
    rw [List.forall_mem_cons] at hall
    refine ⟨x :: p, mem_behind.mpr ⟨p, hall.1, rfl⟩, (parts.map (x :: ·)).flatten, ?_,
      flatten_behind p parts⟩
    refine Language.mem_kstar.mpr ⟨_, rfl, ?_⟩
    intro y hy
    obtain ⟨q, hq, rfl⟩ := List.mem_map.mp hy
    exact mem_behind.mpr ⟨q, hall.2 q hq, rfl⟩

/-- Where no segment has a separator inside, a path matches exactly when all parts between its
separators do. -/
theorem mem_path [BEq α] [LawfulBEq α] (hx : ∀ p ∈ segment.matches', x ∉ p) :
    w ∈ (path x segment).matches' ↔
      ∃ t, w = x :: t ∧ ∀ p ∈ t.splitOn x, p ∈ segment.matches' := by
  rw [mem_path_iff_parts]
  constructor
  · rintro ⟨parts, hne, hall, rfl⟩
    refine ⟨_, rfl, ?_⟩
    rw [List.splitOn_intercalate x (fun p hp => hx p (hall p hp)) hne]
    exact hall
  · rintro ⟨t, rfl, hall⟩
    refine ⟨t.splitOn x, ?_, hall, ?_⟩
    · exact List.splitOnP_ne_nil _ _
    · rw [List.intercalate_splitOn]

end Path

/-- The characters from one to another. -/
def range (first last : Char) : List Char :=
  (List.range (last.toNat + 1 - first.toNat)).map fun i => Char.ofNat (first.toNat + i)

theorem mem_range {first last c : Char} (hlast : last.toNat < 0xd800) :
    c ∈ range first last ↔ first ≤ c ∧ c ≤ last := by
  rw [range, List.mem_map, Char.le_def, Char.le_def, UInt32.le_iff_toNat_le, UInt32.le_iff_toNat_le]
  constructor
  · rintro ⟨i, hi, rfl⟩
    rw [List.mem_range] at hi
    have hvalid : (first.toNat + i).isValidChar := Or.inl (by omega)
    have hnat : (Char.ofNat (first.toNat + i)).toNat = first.toNat + i := by
      rw [Char.ofNat, dif_pos hvalid]
      rfl
    rw [Char.toNat_val, Char.toNat_val, Char.toNat_val, hnat]
    omega
  · rw [Char.toNat_val, Char.toNat_val, Char.toNat_val]
    rintro ⟨hfirst, hle⟩
    refine ⟨c.toNat - first.toNat, List.mem_range.mpr (by omega), ?_⟩
    rw [Nat.add_sub_cancel' hfirst, Char.ofNat_toNat]

end Markup.Pattern

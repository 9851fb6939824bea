import Mathlib.Control.Monad.Writer
import Mathlib.Order.Basic

/-!
# Loops over a position, and two readers of one text

A reader walks over a text of known size; every round of its loop ends behind the position it
began at, and not behind the end, so the loop ends. Of two readers of one text, one may check
what the other only passes on: they agree if the second accepts exactly when the first does and
everything that it passed on satisfies the check.
-/

namespace Durable.Cursor

variable {σ τ α β γ δ ω : Type}

/-- A position in a text of the given size that is not before `first`. -/
@[ext] structure Reach (size first : ℕ) where
  next : ℕ
  ge : first ≤ next
  le : next ≤ size

/-- The position, seen from an earlier one. -/
def Reach.since {size first : ℕ} (r : Reach size first) {earlier : ℕ} (h : earlier ≤ first) :
    Reach size earlier :=
  ⟨r.next, Nat.le_trans h r.ge, r.le⟩

/-- `while pos < size`. -/
def loop {m : Type → Type} [Monad m] (size : ℕ)
    (step : (pos : ℕ) → pos < size → σ → m (Reach size (pos + 1) × σ)) (pos : ℕ) (s : σ) : m σ :=
  if h : pos < size then do
    let (r, s) ← step pos h s
    loop size step r.next s
  else pure s
termination_by size - pos
decreasing_by
  have hgt := r.ge
  omega

/-! ## Two readers -/

/-- A reader that passes on values on its way. -/
abbrev Logged (ω ε α : Type) : Type := WriterT (List ω) (Except ε) α

variable {ε ε' : Type}

/-- The readers accept or refuse the text together, if the first one is taken to refuse it when it
has passed on a value that does not satisfy `p`. -/
def Agree (p : ω → Prop) (R : α → β → Prop) (x : Logged ω ε α) : Except ε' β → Prop
  | .ok b => ∃ a l, x.run = .ok (a, l) ∧ (∀ w ∈ l, p w) ∧ R a b
  | .error _ => ∀ a l, x.run = .ok (a, l) → ∃ w ∈ l, ¬ p w

namespace Agree

variable {p : ω → Prop} {R : α → β → Prop} {S : γ → δ → Prop}

theorem pure {a : α} {b : β} (h : R a b) :
    Agree p R (Pure.pure a : Logged ω ε α) (Pure.pure b : Except ε' β) :=
  ⟨a, [], rfl, by simp, h⟩

theorem throw {e : ε} {e' : ε'} :
    Agree p R (MonadExcept.throw e : Logged ω ε α) (MonadExcept.throw e' : Except ε' β) :=
  nofun

variable {y : Except ε' β}

/-- A value is passed on here and checked there. -/
theorem tell {w : ω} (hok : p w → ∃ b, y = .ok b) (herror : ¬ p w → ∃ e, y = .error e) :
    Agree p (fun _ _ => True) (MonadWriter.tell [w] : Logged ω ε PUnit) y := by
  by_cases hw : p w
  · obtain ⟨b, rfl⟩ := hok hw
    exact ⟨⟨⟩, [w], rfl, by simpa using hw, trivial⟩
  · obtain ⟨e, rfl⟩ := herror hw
    intro a l h
    cases h
    exact ⟨w, by simp, hw⟩

variable {x : Logged ω ε α}

theorem bind_eq_ok {f : α → Logged ω ε γ} {c : γ} {l : List ω} :
    (x >>= f).run = .ok (c, l) ↔
      ∃ a l₁ l₂, x.run = .ok (a, l₁) ∧ (f a).run = .ok (c, l₂) ∧ l = l₁ ++ l₂ := by
  change (x.run >>= fun r => (fun q : γ × List ω => (q.1, r.2 ++ q.2)) <$> (f r.1).run) = _ ↔ _
  cases hx : x.run with
  | error e =>
    constructor
    · nofun
    · rintro ⟨_, _, _, h, _⟩
      cases h
  | ok r =>
    obtain ⟨a, l₁⟩ := r
    cases hf : (f a).run with
    | error e =>
      change (_ <$> (f a).run) = _ ↔ _
      rw [hf]
      constructor
      · nofun
      · rintro ⟨_, _, _, h, h', _⟩
        cases h
        rw [hf] at h'
        cases h'
    | ok q =>
      obtain ⟨c', l₂⟩ := q
      change (_ <$> (f a).run) = _ ↔ _
      rw [hf]
      constructor
      · intro h
        cases h
        exact ⟨a, l₁, l₂, rfl, hf, rfl⟩
      · rintro ⟨_, _, _, h, h', rfl⟩
        cases h
        rw [hf] at h'
        cases h'
        rfl

theorem bind {f : α → Logged ω ε γ} {g : β → Except ε' δ} (h : Agree p R x y)
    (hf : ∀ a b, R a b → Agree p S (f a) (g b)) :
    Agree p S (x >>= f) (y >>= g) := by
  cases y with
  | error e =>
    intro c l hrun
    obtain ⟨a, l₁, l₂, hx, -, rfl⟩ := bind_eq_ok.mp hrun
    obtain ⟨w, hw, hp⟩ := h a l₁ hx
    exact ⟨w, List.mem_append_left _ hw, hp⟩
  | ok b =>
    obtain ⟨a, l₁, hx, hl₁, hR⟩ := h
    have hagree := hf a b hR
    change Agree p S (x >>= f) (g b)
    cases hg : g b with
    | error e =>
      rw [hg] at hagree
      intro c l hrun
      obtain ⟨a', l₁', l₂, hx', hf', rfl⟩ := bind_eq_ok.mp hrun
      rw [hx] at hx'
      cases hx'
      obtain ⟨w, hw, hp⟩ := hagree c l₂ hf'
      exact ⟨w, List.mem_append_right _ hw, hp⟩
    | ok d =>
      rw [hg] at hagree
      obtain ⟨c, l₂, hf', hl₂, hS⟩ := hagree
      refine ⟨c, l₁ ++ l₂, bind_eq_ok.mpr ⟨a, l₁, l₂, hx, hf', rfl⟩, ?_, hS⟩
      intro w hw
      exact (List.mem_append.mp hw).elim (hl₁ w) (hl₂ w)

/-- A part that passes nothing on. -/
theorem lift {x : Except ε α} (hok : ∀ a, x = .ok a → ∃ b, y = .ok b ∧ R a b)
    (herror : ∀ e, x = .error e → ∃ e', y = .error e') : Agree p R (x : Logged ω ε α) y := by
  cases x with
  | error e =>
    obtain ⟨e', rfl⟩ := herror e rfl
    exact nofun
  | ok a =>
    obtain ⟨b, rfl, hR⟩ := hok a rfl
    exact ⟨a, [], rfl, by simp, hR⟩

/-- A part that passes nothing on and returns the same. -/
theorem same {x : Except ε α} {y : Except ε' α} (h : ∀ a, x = .ok a ↔ y = .ok a) :
    Agree p Eq (x : Logged ω ε α) y := by
  refine lift (fun a hx => ⟨a, (h a).mp hx, rfl⟩) ?_
  intro e hx
  cases y with
  | error e' => exact ⟨e', rfl⟩
  | ok a =>
    have hok := (h a).mpr rfl
    rw [hx] at hok
    cases hok

theorem ite {c c' : Prop} [Decidable c] [Decidable c'] {x x' : Logged ω ε α}
    {y y' : Except ε' β} (hc : c ↔ c') (h : c → Agree p R x y) (h' : ¬ c → Agree p R x' y') :
    Agree p R (if c then x else x') (if c' then y else y') := by
  by_cases hcond : c
  · rw [if_pos hcond, if_pos (hc.mp hcond)]
    exact h hcond
  · rw [if_neg hcond, if_neg (fun h => hcond (hc.mpr h))]
    exact h' hcond

theorem mono {R' : α → β → Prop} (h : Agree p R x y) (hR : ∀ a b, R a b → R' a b) :
    Agree p R' x y := by
  cases y with
  | error e => exact h
  | ok b =>
    obtain ⟨a, l, hx, hl, hab⟩ := h
    exact ⟨a, l, hx, hl, hR a b hab⟩

/-- The positions of the two loops stay the same. -/
theorem loop {size : ℕ} {R : σ → τ → Prop}
    {step : (pos : ℕ) → pos < size → σ → Logged ω ε (Reach size (pos + 1) × σ)}
    {step' : (pos : ℕ) → pos < size → τ → Except ε' (Reach size (pos + 1) × τ)}
    (hstep : ∀ pos h s t, R s t →
      Agree p (fun a b => a.1 = b.1 ∧ R a.2 b.2) (step pos h s) (step' pos h t))
    (pos : ℕ) (s : σ) (t : τ) (h : R s t) :
    Agree p R (Cursor.loop size step pos s) (Cursor.loop size step' pos t) := by
  induction hn : size - pos using Nat.strongRecOn generalizing pos s t with
  | _ n ih =>
    rw [Cursor.loop, Cursor.loop]
    by_cases hpos : pos < size
    · rw [dif_pos hpos, dif_pos hpos]
      refine bind (hstep pos hpos s t h) ?_
      rintro ⟨r, s'⟩ ⟨r', t'⟩ ⟨rfl, hR⟩
      have hgt := r.ge
      exact ih _ (by omega) r.next s' t' hR rfl
    · rw [dif_neg hpos, dif_neg hpos]
      exact pure h

end Agree

end Durable.Cursor

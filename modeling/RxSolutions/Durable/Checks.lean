import Mathlib.Tactic.TypeStar

/-!
# Chains of checks

A function that refuses its input by returning an error at the first check that fails succeeds
exactly when every check passes. These rules read such a function, written in `do` notation, as
the conjunction of its checks.
-/

namespace Durable.Checks

universe u

variable {ε ε' α β : Type u} {a : α}

/-- A sequence succeeds when its first step does and then the rest. -/
theorem bind_eq_ok {x : Except ε α} {f : α → Except ε β} {b : β} :
    (x >>= f) = .ok b ↔ ∃ a, x = .ok a ∧ f a = .ok b := by
  cases x with
  | error e => simp [bind, Except.bind]
  | ok a => simp [bind, Except.bind]

/-- A check that returns an error when a condition holds. -/
theorem guard_eq_ok {c : Prop} [Decidable c] {e : ε} {refused : β → Except ε α}
    {next : Except ε α} :
    (if c then throw e >>= refused else next) = .ok a ↔ ¬ c ∧ next = .ok a := by
  by_cases h : c
  · simp [h, throw, throwThe, MonadExceptOf.throw, bind, Except.bind]
  · simp [h]

/-- The last check of a sequence. -/
theorem last_eq_ok {c : Prop} [Decidable c] {e : ε} {a b : α} :
    (if c then throw e else pure a : Except ε α) = .ok b ↔ ¬ c ∧ a = b := by
  by_cases h : c
  · simp [h, throw, throwThe, MonadExceptOf.throw]
  · simp [h, pure, Except.pure]

@[simp] theorem mapError_ok (f : ε → ε') : (Except.ok a).mapError f = .ok a := rfl

@[simp] theorem mapError_error {e : ε} (f : ε → ε') :
    (Except.error e : Except ε α).mapError f = .error (f e) := rfl

theorem mapError_eq_ok {x : Except ε α} {f : ε → ε'} : x.mapError f = .ok a ↔ x = .ok a := by
  cases x with
  | error e => simp
  | ok a => simp

theorem pure_eq_ok {a b : α} : (pure a : Except ε α) = .ok b ↔ a = b := by
  simp [pure, Except.pure]

/-- A loop of checks succeeds when every one does. -/
theorem forM_eq_ok {α ε : Type} {f : α → Except ε Unit} {l : List α} :
    l.forM f = .ok () ↔ ∀ a ∈ l, f a = .ok () := by
  induction l with
  | nil => simp [pure, Except.pure]
  | cons a l ih =>
    have hcons : (a :: l).forM f = f a >>= fun _ => l.forM f := rfl
    rw [hcons, bind_eq_ok, List.forall_mem_cons, ← ih]
    exact ⟨fun ⟨_, hfirst, hrest⟩ => ⟨hfirst, hrest⟩, fun h => ⟨(), h⟩⟩

/-- A conversion of every item that does not fail. -/
theorem mapM_eq_ok_map {α β ε : Type} {f : α → Except ε β} {g : α → β} {l : List α}
    (h : ∀ a ∈ l, f a = .ok (g a)) : l.mapM f = .ok (l.map g) := by
  induction l with
  | nil => rfl
  | cons a l ih =>
    rw [List.forall_mem_cons] at h
    rw [List.mapM_cons, h.1, ih h.2]
    rfl

/-- A loop that changes nothing on any item has changed nothing. -/
theorem foldlM_skip {α σ ε : Type} {f : σ → α → Except ε σ} {l : List α}
    (h : ∀ a ∈ l, ∀ s, f s a = .ok s) (s : σ) : l.foldlM f s = .ok s := by
  induction l with
  | nil => rfl
  | cons a l ih =>
    rw [List.forall_mem_cons] at h
    rw [List.foldlM_cons, h.1 s]
    exact ih h.2

/-- A loop that acts on the items with one key acts once where keys tell the items apart. -/
theorem foldlM_unique {α σ ε κ : Type} {f : σ → α → Except ε σ} {key : α → κ} {l : List α} {a : α}
    (hnodup : (l.map key).Nodup) (ha : a ∈ l)
    (hskip : ∀ b ∈ l, key b ≠ key a → ∀ s, f s b = .ok s) (s : σ) : l.foldlM f s = f s a := by
  induction l with
  | nil => exact absurd ha List.not_mem_nil
  | cons b l ih =>
    rw [List.map_cons, List.nodup_cons] at hnodup
    rw [List.forall_mem_cons] at hskip
    rw [List.foldlM_cons]
    cases List.mem_cons.mp ha with
    | inl heq =>
      subst heq
      -- no later item has the key again
      have hrest : ∀ c ∈ l, ∀ s, f s c = .ok s := fun c hc =>
        hskip.2 c hc fun hkey => hnodup.1 (List.mem_map.mpr ⟨c, hc, hkey⟩)
      cases f s a with
      | error e => rfl
      | ok s' => exact foldlM_skip hrest s'
    | inr hmem =>
      have hne : key b ≠ key a := fun hkey =>
        hnodup.1 (List.mem_map.mpr ⟨a, hmem, hkey.symm⟩)
      rw [hskip.1 hne s]
      exact ih hnodup.2 hmem hskip.2

end Durable.Checks

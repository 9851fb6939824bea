import Mathlib.Algebra.Order.Monoid.Unbundled.WithTop
import Mathlib.Data.Set.Insert

/-!
# Fencing tokens

A grant covers a set of resources under one number, its fence. It is issued only with
a fence above the newest one of each of its resources, which it then becomes, so a
resource is held by the grant with its newest fence and lost by all older ones. Nobody
holds a lock: a user shows its grant, and is let in if the grant holds every resource
it is about to use.

This excludes two users of a resource only if no grant is issued over a resource in
use, which `Step.issue` asks for. Users may leave at any time.
-/

namespace Durable

/-- What a grant covers, and under which number. -/
structure Token (ρ : Type*) where
  covers : Set ρ
  fence : ℕ

/-- The newest fence of each resource in `ρ`, the grants issued under names in `γ`, and the
users in `ι` that were let in and have not left, with their grant and what they use. -/
@[ext]
structure Tokens (ρ γ ι : Type*) where
  newest : ρ → WithBot ℕ
  grants : γ → Option (Token ρ)
  uses : Set (ι × γ × Set ρ)

namespace Tokens

variable {ρ γ ι : Type*} {t t' : Tokens ρ γ ι} {g g' : γ} {k : Token ρ} {x : ρ} {i : ι}
  {xs : Set ρ}

/-- The grant covers the resource under its newest fence. -/
def Holds (t : Tokens ρ γ ι) (g : γ) (x : ρ) : Prop :=
  ∃ k, t.grants g = some k ∧ x ∈ k.covers ∧ t.newest x = k.fence

variable [DecidableEq γ]

open Classical in
/-- The tokens after a grant was issued. -/
noncomputable def issue (t : Tokens ρ γ ι) (g : γ) (k : Token ρ) : Tokens ρ γ ι where
  newest x := if x ∈ k.covers then k.fence else t.newest x
  grants := Function.update t.grants g (some k)
  uses := t.uses

/-- A grant is issued, a user is let in, or users leave. -/
inductive Step : Tokens ρ γ ι → Tokens ρ γ ι → Prop
  | issue {t : Tokens ρ γ ι} {g : γ} {k : Token ρ} (absent : t.grants g = none)
      (newer : ∀ x ∈ k.covers, t.newest x < k.fence)
      (free : ∀ i g' xs, (i, g', xs) ∈ t.uses → ∀ x ∈ xs, x ∉ k.covers) : Step t (t.issue g k)
  | enter {t : Tokens ρ γ ι} {i : ι} {g : γ} {xs : Set ρ} {uses : Set (ι × γ × Set ρ)}
      (holds : ∀ x ∈ xs, t.Holds g x) (le : uses ⊆ insert (i, g, xs) t.uses) :
      Step t { t with uses := uses }
  | leave {t : Tokens ρ γ ι} {uses : Set (ι × γ × Set ρ)} (le : uses ⊆ t.uses) :
      Step t { t with uses := uses }

/-- No fence is above the newest one, a resource is held by one grant at most, and users hold
what they use. -/
structure Sound (t : Tokens ρ γ ι) : Prop where
  bounded : ∀ g k, t.grants g = some k → ∀ x ∈ k.covers, (k.fence : WithBot ℕ) ≤ t.newest x
  unique : ∀ g g' x, t.Holds g x → t.Holds g' x → g = g'
  held : ∀ i g xs, (i, g, xs) ∈ t.uses → ∀ x ∈ xs, t.Holds g x

omit [DecidableEq γ] in
/-- Only the grant of a user holds the resources in use. -/
theorem Sound.eq_of_uses (h : t.Sound) (hu : (i, g, xs) ∈ t.uses) (hx : x ∈ xs)
    (hheld : t.Holds g' x) : g' = g :=
  h.unique g' g x hheld (h.held i g xs hu x hx)

theorem newest_issue_of_mem (hx : x ∈ k.covers) : (t.issue g k).newest x = k.fence := if_pos hx

theorem newest_issue_of_notMem (hx : x ∉ k.covers) : (t.issue g k).newest x = t.newest x :=
  if_neg hx

theorem grants_issue_self : (t.issue g k).grants g = some k := Function.update_self ..

theorem grants_issue_of_ne (h : g' ≠ g) : (t.issue g k).grants g' = t.grants g' :=
  Function.update_of_ne h ..

theorem Holds.of_issue_of_notMem (hx : x ∉ k.covers) (h : (t.issue g k).Holds g' x) :
    t.Holds g' x := by
  obtain ⟨k', hk', hcovers, hnewest⟩ := h
  have hne : g' ≠ g := by
    rintro rfl
    rw [grants_issue_self] at hk'
    exact hx (Option.some.inj hk' ▸ hcovers)
  rw [grants_issue_of_ne hne] at hk'
  rw [newest_issue_of_notMem hx] at hnewest
  exact ⟨k', hk', hcovers, hnewest⟩

/-- A new grant takes what it covers from all others. -/
theorem Sound.eq_of_holds_issue (h : t.Sound) (newer : ∀ x ∈ k.covers, t.newest x < k.fence)
    (hx : x ∈ k.covers) (hheld : (t.issue g k).Holds g' x) : g' = g := by
  by_contra hne
  obtain ⟨k', hk', hcovers, hnewest⟩ := hheld
  rw [grants_issue_of_ne hne] at hk'
  rw [newest_issue_of_mem hx] at hnewest
  have hle := h.bounded g' k' hk' x hcovers
  rw [← hnewest] at hle
  exact absurd (newer x hx) (not_lt_of_ge hle)

/-- Every step keeps the invariant. -/
theorem Sound.step (h : t.Sound) (hstep : Step t t') : t'.Sound := by
  cases hstep with
  | @issue g k absent newer free =>
    refine ⟨fun g' k' hk' x hx => ?_, fun g₁ g₂ x h₁ h₂ => ?_, fun i g' xs hu x hx => ?_⟩
    · by_cases hg : g' = g
      · subst hg
        obtain rfl := Option.some.inj (grants_issue_self.symm.trans hk')
        rw [newest_issue_of_mem hx]
      · rw [grants_issue_of_ne hg] at hk'
        have hle := h.bounded g' k' hk' x hx
        by_cases hcovered : x ∈ k.covers
        · rw [newest_issue_of_mem hcovered]
          exact hle.trans (newer x hcovered).le
        · rw [newest_issue_of_notMem hcovered]
          exact hle
    · by_cases hcovered : x ∈ k.covers
      · rw [h.eq_of_holds_issue newer hcovered h₁, h.eq_of_holds_issue newer hcovered h₂]
      · exact h.unique g₁ g₂ x (h₁.of_issue_of_notMem hcovered) (h₂.of_issue_of_notMem hcovered)
    · -- nothing in use is covered by the new grant, so its user still holds it
      have hcovered : x ∉ k.covers := free i g' xs hu x hx
      obtain ⟨k', hk', hcovers, hnewest⟩ := h.held i g' xs hu x hx
      have hne : g' ≠ g := by
        rintro rfl
        rw [absent] at hk'
        cases hk'
      refine ⟨k', ?_, hcovers, ?_⟩
      · rw [grants_issue_of_ne hne, hk']
      · rw [newest_issue_of_notMem hcovered, hnewest]
  | enter holds le =>
    refine ⟨h.bounded, h.unique, fun i g xs hu => ?_⟩
    rcases le hu with heq | hu
    · cases heq
      exact holds
    · exact h.held i g xs hu
  | leave le => exact ⟨h.bounded, h.unique, fun i g xs hu => h.held i g xs (le hu)⟩

/-- The newest fence of a resource never falls. -/
theorem Step.newest_le (hstep : Step t t') (x : ρ) : t.newest x ≤ t'.newest x := by
  cases hstep with
  | @issue g k absent newer free =>
    by_cases hx : x ∈ k.covers
    · rw [newest_issue_of_mem hx]
      exact (newer x hx).le
    · rw [newest_issue_of_notMem hx]
  | enter | leave => exact le_rfl

/-- A grant stays as it was issued. -/
theorem Step.grants_eq (hstep : Step t t') (hk : t.grants g = some k) : t'.grants g = some k := by
  cases hstep with
  | @issue g' k' absent newer free =>
    rw [grants_issue_of_ne, hk]
    rintro rfl
    rw [absent] at hk
    cases hk
  | enter | leave => exact hk

end Tokens

end Durable

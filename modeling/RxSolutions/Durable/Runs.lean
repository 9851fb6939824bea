import Mathlib.Data.List.Induction

/-!
# Runs of a machine

A machine is a step function; a run feeds it a list of inputs. An invariant is shown
for one step, and a fact that came about during a run was brought about by one of its
inputs.
-/

namespace Durable.Runs

variable {σ ι : Type*} (step : σ → ι → σ)

/-- The state after the inputs, one after the other. -/
def after (s : σ) (inputs : List ι) : σ := inputs.foldl step s

@[simp] theorem after_nil (s : σ) : after step s [] = s := rfl

@[simp] theorem after_cons (s : σ) (i : ι) (inputs : List ι) :
    after step s (i :: inputs) = after step (step s i) inputs := rfl

theorem after_append (s : σ) (a b : List ι) :
    after step s (a ++ b) = after step (after step s a) b :=
  List.foldl_append ..

theorem after_concat (s : σ) (a : List ι) (i : ι) :
    after step s (a ++ [i]) = step (after step s a) i := by
  rw [after_append, after_cons, after_nil]

variable {step} {s : σ}

variable {P : σ → Prop}

/-- What holds at first and is kept by every step holds after every run. -/
theorem invariant (hstep : ∀ s i, P s → P (step s i)) (h : P s) (inputs : List ι) :
    P (after step s inputs) := by
  induction inputs generalizing s with
  | nil => exact h
  | cons i inputs ih => exact ih (hstep s i h)

/-- A preorder that every step from an invariant state respects relates the two ends of a
run. -/
theorem related {R : σ → σ → Prop} (hrefl : ∀ s, R s s) (htrans : ∀ s t u, R s t → R t u → R s u)
    (hstep : ∀ s i, P s → P (step s i)) (hR : ∀ s i, P s → R s (step s i)) (h : P s)
    (inputs : List ι) :
    R s (after step s inputs) := by
  induction inputs generalizing s with
  | nil => exact hrefl s
  | cons i inputs ih => exact htrans _ _ _ (hR s i h) (ih (hstep s i h))

/-- What holds after a run and did not before was brought about by one of its inputs. -/
theorem first {inputs : List ι} (hnot : ¬ P s) (h : P (after step s inputs)) :
    ∃ a i b, inputs = a ++ i :: b ∧ ¬ P (after step s a) ∧ P (step (after step s a) i) := by
  induction inputs using List.reverseRecOn with
  | nil => exact absurd h hnot
  | append_singleton inputs i ih =>
    by_cases hbefore : P (after step s inputs)
    · obtain ⟨a, j, b, heq, hfirst⟩ := ih hbefore
      exact ⟨a, j, b ++ [i], by simp [heq], hfirst⟩
    · rw [after_concat] at h
      exact ⟨inputs, i, [], rfl, hbefore, h⟩

end Durable.Runs

import Mathlib.Data.List.Basic

/-!
# Finding an element of a queue

A search by position that is followed by an access, a change or a removal at that
position is read as one split of the queue around the first element that satisfies the
condition.
-/

namespace Durable.Queue

variable {α : Type*} {p : α → Bool} {l a b : List α} {x : α}

/-- The queue around its first element that satisfies the condition. -/
def splitFirst (p : α → Bool) : List α → Option (List α × α × List α)
  | [] => none
  | x :: l => if p x then some ([], x, l)
      else (splitFirst p l).map fun (a, y, b) => (x :: a, y, b)

theorem splitFirst_eq_some (h : splitFirst p l = some (a, x, b)) :
    l = a ++ x :: b ∧ p x = true ∧ ∀ y ∈ a, p y = false := by
  induction l generalizing a with
  | nil => cases h
  | cons y l ih =>
    unfold splitFirst at h
    split at h
    · cases h
      exact ⟨rfl, ‹_›, by simp⟩
    · rw [Option.map_eq_some_iff] at h
      obtain ⟨⟨a', x', b'⟩, hsplit, heq⟩ := h
      cases heq
      obtain ⟨hl, hx, hfirst⟩ := ih hsplit
      exact ⟨by rw [hl]; rfl, hx, by simpa [*] using hfirst⟩

end Durable.Queue

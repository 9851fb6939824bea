import Mathlib.Data.List.Induction

/-!
# Histories of events

What a system did is the list of its events, the newest at the end. A property of a history
speaks about each event together with the events before it, so one more event leaves what was
shown of the others.
-/

namespace Durable.History

variable {ε α : Type*} {P Q : List ε → ε → Prop} {t : List ε}

/-- Each event satisfies `P` together with the events before it. -/
def Every (P : List ε → ε → Prop) (t : List ε) : Prop :=
  ∀ a e b, t = a ++ e :: b → P a e

@[simp] theorem every_nil : Every P [] := by
  intro a e b h
  simp at h

/-- A history grows at its end. -/
theorem every_concat {e : ε} : Every P (t ++ [e]) ↔ Every P t ∧ P t e := by
  constructor
  · intro h
    refine ⟨fun a x b heq => h a x (b ++ [e]) (by simp [heq]), h t e [] rfl⟩
  · rintro ⟨h, he⟩ a x b heq
    -- the event is the last one, or stands before it
    rcases List.eq_nil_or_concat b with rfl | ⟨b, y, rfl⟩
    · obtain ⟨rfl, hlast⟩ := List.append_inj' heq rfl
      cases hlast
      exact he
    · rw [List.concat_eq_append, ← List.cons_append, ← List.append_assoc] at heq
      exact h a x b (List.append_inj' heq rfl).1

end Durable.History

import Mathlib.Data.List.Basic

/-!
# Replacing a word

Every occurrence of a word in a text is replaced by another word, from the left, and the search
goes on behind what was replaced. A word that is replaced by a longer one that begins with it can
be put back, whatever the text and the two words are: up to the end of its first occurrence the
text is as it was, so no occurrence comes up where there was none.
-/

namespace Durable.Replacement

variable {α : Type} [DecidableEq α]

/-- Skip some letters, and replace the word in the rest. -/
def replaceFrom (old new : List α) : ℕ → List α → List α
  | _, [] => []
  | skip + 1, _ :: rest => replaceFrom old new skip rest
  | 0, a :: rest =>
    if old <+: a :: rest then new ++ replaceFrom old new (old.length - 1) rest
    else a :: replaceFrom old new 0 rest

/-- The text with every occurrence of a word replaced. -/
def replace (old new text : List α) : List α := replaceFrom old new 0 text

variable {old new : List α}

@[simp] theorem replace_nil : replace old new [] = [] := rfl

theorem replaceFrom_eq (skip : ℕ) (text : List α) :
    replaceFrom old new skip text = replace old new (text.drop skip) := by
  induction text generalizing skip with
  | nil => cases skip <;> rfl
  | cons a rest ih =>
    cases skip with
    | zero => rfl
    | succ skip => exact ih skip

theorem replace_append (hold : old ≠ []) (rest : List α) :
    replace old new (old ++ rest) = new ++ replace old new rest := by
  cases old with
  | nil => exact absurd rfl hold
  | cons a word =>
    have hfound : a :: word <+: a :: (word ++ rest) := List.prefix_append _ _
    rw [replace, List.cons_append, replaceFrom, if_pos hfound, replaceFrom_eq, List.length_cons,
      Nat.add_sub_cancel, List.drop_left]

theorem replace_cons {a : α} {rest : List α} (h : ¬ old <+: a :: rest) :
    replace old new (a :: rest) = a :: replace old new rest := by
  rw [replace, replaceFrom, if_neg h]
  rfl

/-- A text ends, begins with the word, or begins with another letter. -/
theorem text_induction {motive : List α → Prop} (hold : old ≠ []) (nil : motive [])
    (found : ∀ rest, motive rest → motive (old ++ rest))
    (other : ∀ a rest, ¬ old <+: a :: rest → motive rest → motive (a :: rest)) (text : List α) :
    motive text := by
  induction h : text.length using Nat.strongRecOn generalizing text with
  | _ n ih =>
    subst h
    by_cases hfound : old <+: text
    · obtain ⟨rest, rfl⟩ := hfound
      have hpos := List.length_pos_of_ne_nil hold
      exact found rest (ih rest.length (by rw [List.length_append]; omega) rest rfl)
    · cases text with
      | nil => exact nil
      | cons a rest => exact other a rest hfound (ih rest.length (Nat.lt_succ_self _) rest rfl)

/-- A longer word in the place of another leaves as many letters as that one has. -/
theorem take_replace (hold : old ≠ []) (more text : List α) :
    (replace old (old ++ more) text).take old.length = text.take old.length := by
  induction text using text_induction hold with
  | nil => rfl
  | found rest _ => rw [replace_append hold, List.append_assoc, List.take_left, List.take_left]
  | other a rest hother ih =>
    rw [replace_cons hother]
    cases hlength : old.length with
    | zero => rfl
    | succ n =>
      have hless := congrArg (List.take n) ih
      rw [hlength, List.take_take, List.take_take, Nat.min_eq_left (Nat.le_succ n)] at hless
      rw [List.take_succ_cons, List.take_succ_cons, hless]

/-- The word is put back. -/
theorem replace_replace (hold : old ≠ []) (more text : List α) :
    replace (old ++ more) old (replace old (old ++ more) text) = text := by
  have hlong : old ++ more ≠ [] := List.append_ne_nil_of_left_ne_nil hold more
  induction text using text_induction hold with
  | nil => rfl
  | found rest ih => rw [replace_append hold, replace_append hlong, ih]
  | other a rest hother ih =>
    -- an occurrence of the longer word would be one of the word, at the same place
    have hother' : ¬ old ++ more <+: a :: replace old (old ++ more) rest := by
      intro hprefix
      apply hother
      have hword := (old.prefix_append more).trans hprefix
      rw [← replace_cons hother, List.prefix_iff_eq_take, take_replace hold] at hword
      exact List.prefix_iff_eq_take.mpr hword
    rw [replace_cons hother, replace_cons hother', ih]

end Durable.Replacement

import Mathlib.Algebra.BigOperators.Group.List.Basic
import Mathlib.Data.String.Basic
import RxSolutions.Durable.SortedMap
import RxSolutions.Markup.Json

/-!
# The order of members

Two documents that differ in the order of their members are told apart here but are not by most
readers, and a canonical text has the members in the order of their keys. `Json.ordered` puts
the members of every object in that order.
-/

namespace Markup.Json

open Durable

mutual

/-- The document with the members of every object in the order of their keys. -/
def ordered : Json → Json
  | .array items => .array (orderedAll items)
  | .object members => .object ((orderedMembers members).insertionSort fun a b => a.1 ≤ b.1)
  | .null => .null
  | .bool value => .bool value
  | .number value => .number value
  | .string value => .string value

/-- Order every item. -/
def orderedAll : List Json → List Json
  | [] => []
  | j :: js => j.ordered :: orderedAll js

/-- Order every member's value. -/
def orderedMembers : List (String × Json) → List (String × Json)
  | [] => []
  | (key, j) :: members => (key, j.ordered) :: orderedMembers members

end

@[simp] theorem ordered_string (s : String) : (string s).ordered = string s := rfl
@[simp] theorem ordered_number (q : ℚ) : (number q).ordered = number q := rfl
@[simp] theorem ordered_bool (b : Bool) : (bool b).ordered = bool b := rfl
@[simp] theorem ordered_null : null.ordered = null := rfl

/-! ## Nesting -/

variable {items : List Json}

theorem nesting_array_le {n : ℕ} :
    (array items).nesting ≤ n + 1 ↔ ∀ j ∈ items, j.nesting ≤ n := by
  rw [nesting, Nat.add_le_add_iff_right]
  induction items with
  | nil => simp [nestingAll]
  | cons j js ih => rw [nestingAll, Nat.max_le, ih, List.forall_mem_cons]

variable {members : List (String × Json)}

theorem nesting_object_le {n : ℕ} :
    (object members).nesting ≤ n + 1 ↔ ∀ m ∈ members, m.2.nesting ≤ n := by
  rw [nesting, Nat.add_le_add_iff_right]
  induction members with
  | nil => simp [nestingMembers]
  | cons m members ih =>
    obtain ⟨key, j⟩ := m
    rw [nestingMembers, Nat.max_le, ih, List.forall_mem_cons]

/-! ## Shapes -/

/-- The document names no member twice and nests no deeper than this. -/
def Shaped (n : ℕ) (j : Json) : Prop := j.strict = true ∧ j.nesting ≤ n

variable {n : ℕ}

@[simp] theorem shaped_null : null.Shaped n := ⟨rfl, Nat.zero_le n⟩
@[simp] theorem shaped_bool (b : Bool) : (bool b).Shaped n := ⟨rfl, Nat.zero_le n⟩
@[simp] theorem shaped_number (q : ℚ) : (number q).Shaped n := ⟨rfl, Nat.zero_le n⟩
@[simp] theorem shaped_string (s : String) : (string s).Shaped n := ⟨rfl, Nat.zero_le n⟩

theorem shaped_array :
    (array items).Shaped (n + 1) ↔ ∀ j ∈ items, j.Shaped n := by
  rw [Shaped, strict_array, nesting_array_le]
  exact forall₂_and.symm

theorem shaped_object : (object members).Shaped (n + 1) ↔
    (members.map (·.1)).Nodup ∧ ∀ m ∈ members, m.2.Shaped n := by
  rw [Shaped, strict_object, nesting_object_le, and_assoc]
  exact and_congr_right fun _ => forall₂_and.symm

end Markup.Json

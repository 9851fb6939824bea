import Mathlib.Algebra.GroupWithZero.Nat
import Mathlib.Data.List.Nodup
import Mathlib.Data.Rat.Defs

/-!
# JSON documents

A text and the document that it spells are not told apart here: what matters about a text is
how deeply it nests, how long it is, and whether a member is named twice. Two ways to count the
nesting are in use. A parser that reports each event with its depth sees the inside of an empty
container no deeper than its start; a recursive one counts every container that it opens.
-/

namespace Markup

/-- A document. -/
inductive Json
  | null
  | bool (value : Bool)
  /-- Numbers are read as the rationals that they denote. -/
  | number (value : ℚ)
  | string (value : String)
  | array (items : List Json)
  | object (members : List (String × Json))

namespace Json

mutual

/-- Whether two documents are equal, with their members in the same order. -/
def same : Json → Json → Bool
  | .null, .null => true
  | .bool a, .bool b => a = b
  | .number a, .number b => a = b
  | .string a, .string b => a = b
  | .array a, .array b => sameAll a b
  | .object a, .object b => sameMembers a b
  | _, _ => false

/-- The items are the same, in order. -/
def sameAll : List Json → List Json → Bool
  | [], [] => true
  | a :: as, b :: bs => a.same b && sameAll as bs
  | _, _ => false

/-- The members are the same, in order. -/
def sameMembers : List (String × Json) → List (String × Json) → Bool
  | [], [] => true
  | (key, a) :: as, (key', b) :: bs => decide (key = key') && a.same b && sameMembers as bs
  | _, _ => false

end

mutual

/-- The comparison decides equality. -/
theorem same_iff : ∀ a b : Json, a.same b = true ↔ a = b
  | .null, b => by cases b <;> simp [same]
  | .bool a, b => by cases b <;> simp [same]
  | .number a, b => by cases b <;> simp [same]
  | .string a, b => by cases b <;> simp [same]
  | .array a, b => by cases b <;> simp [same, sameAll_iff a]
  | .object a, b => by cases b <;> simp [same, sameMembers_iff a]

theorem sameAll_iff : ∀ as bs : List Json, sameAll as bs = true ↔ as = bs
  | [], bs => by cases bs <;> simp [sameAll]
  | a :: as, bs => by cases bs <;> simp [sameAll, same_iff a, sameAll_iff as]

theorem sameMembers_iff : ∀ as bs : List (String × Json), sameMembers as bs = true ↔ as = bs
  | [], bs => by cases bs <;> simp [sameMembers]
  | (key, a) :: as, bs => by
    cases bs <;> simp [sameMembers, Prod.ext_iff, same_iff a, sameMembers_iff as]

end

instance instDecidableEq : DecidableEq Json := fun a b => decidable_of_iff _ (same_iff a b)

/-- The member of an object with a key. -/
def get? : Json → String → Option Json
  | .object members, key => members.lookup key
  | _, _ => none

/-- The keys of an object. -/
def keys : Json → Option (List String)
  | .object members => some (members.map (·.1))
  | _ => none

/-! ## Nesting -/

mutual

/-- The depth of the deepest event. -/
def depth : Json → ℕ
  | .array items => depthAll items
  | .object members => depthMembers members
  | _ => 0

/-- The depth of the deepest item. -/
def depthAll : List Json → ℕ
  | [] => 0
  | j :: js => max (j.depth + 1) (depthAll js)

/-- The depth of the deepest member. -/
def depthMembers : List (String × Json) → ℕ
  | [] => 0
  | (_, j) :: members => max (j.depth + 1) (depthMembers members)

end

mutual

/-- The most containers that are open at a time. -/
def nesting : Json → ℕ
  | .array items => nestingAll items + 1
  | .object members => nestingMembers members + 1
  | _ => 0

/-- The nesting of the deepest item. -/
def nestingAll : List Json → ℕ
  | [] => 0
  | j :: js => max j.nesting (nestingAll js)

/-- The nesting of the deepest member. -/
def nestingMembers : List (String × Json) → ℕ
  | [] => 0
  | (_, j) :: members => max j.nesting (nestingMembers members)

end

attribute [local simp] depth depthAll depthMembers nesting nestingAll nestingMembers

@[simp] theorem depth_null : null.depth = 0 := rfl
@[simp] theorem depth_bool (b : Bool) : (bool b).depth = 0 := rfl
@[simp] theorem depth_number (q : ℚ) : (number q).depth = 0 := rfl
@[simp] theorem depth_string (s : String) : (string s).depth = 0 := rfl

mutual

/-- A document is not deeper than it is nested. -/
theorem depth_le_nesting : ∀ j : Json, j.depth ≤ j.nesting
  | .null | .bool _ | .number _ | .string _ => by simp
  | .array items => by
    rw [nesting, depth]
    exact depthAll_le items
  | .object members => by
    rw [nesting, depth]
    exact depthMembers_le members

theorem depthAll_le : ∀ js : List Json, depthAll js ≤ nestingAll js + 1
  | [] => Nat.zero_le _
  | j :: js => by
    have hj := depth_le_nesting j
    have hjs := depthAll_le js
    rw [nestingAll, depthAll]
    omega

theorem depthMembers_le : ∀ members : List (String × Json),
    depthMembers members ≤ nestingMembers members + 1
  | [] => Nat.zero_le _
  | (_, j) :: members => by
    have hj := depth_le_nesting j
    have hmembers := depthMembers_le members
    rw [nestingMembers, depthMembers]
    omega

end

/-! ## Length -/

/-- The bytes of a character in a string: quotes, backslashes and control characters are
escaped. -/
def charSize (c : Char) : ℕ :=
  if c = '"' ∨ c = '\\' ∨ c = '\n' ∨ c = '\r' ∨ c = '\t' ∨ c.toNat = 8 ∨ c.toNat = 12 then 2
  else if c.toNat < 32 then 6
  else c.utf8Size

/-- The bytes of a text with its quotes. -/
def stringSize (s : String) : ℕ := 2 + (s.toList.map charSize).sum

mutual

/-- The bytes of the text without blanks, where `number` is the length of each number. -/
def size (number : ℚ → ℕ) : Json → ℕ
  | .null => 4
  | .bool true => 4
  | .bool false => 5
  | .number value => number value
  | .string value => stringSize value
  | .array items => 1 + sizeAll number items
  | .object members => 1 + sizeMembers number members

/-- The bytes of the items, each with the comma or bracket after it. -/
def sizeAll (number : ℚ → ℕ) : List Json → ℕ
  | [] => 1
  | [j] => j.size number + 1
  | j :: j' :: js => j.size number + 1 + sizeAll number (j' :: js)

/-- The bytes of the members and of the brace after them. -/
def sizeMembers (number : ℚ → ℕ) : List (String × Json) → ℕ
  | [] => 1
  | [(key, j)] => stringSize key + 1 + j.size number + 1
  | (key, j) :: m :: members =>
    stringSize key + 1 + j.size number + 1 + sizeMembers number (m :: members)

end

section Size

variable {number : ℚ → ℕ}

/-- No document is written without a byte. -/
theorem one_le_size (hnumber : ∀ q, 1 ≤ number q) : ∀ j : Json, 1 ≤ j.size number
  | .bool true | .bool false | .null => by simp [size]
  | .number q => hnumber q
  | .string _ | .array _ | .object _ => by
    simp only [size, stringSize]
    omega

/-- Every item takes at least a byte and the comma or bracket after it. -/
theorem two_mul_length_le_sizeAll (hnumber : ∀ q, 1 ≤ number q) :
    ∀ js : List Json, 2 * js.length ≤ sizeAll number js
  | [] => Nat.zero_le _
  | [j] => by
    have hj := one_le_size hnumber j
    rw [sizeAll, List.length_singleton]
    omega
  | j :: j' :: js => by
    have hj := one_le_size hnumber j
    have hjs := two_mul_length_le_sizeAll hnumber (j' :: js)
    rw [sizeAll, List.length_cons]
    omega

/-- A member is no longer than all of them. -/
theorem size_le_sizeMembers {key : String} {j : Json} :
    ∀ {members : List (String × Json)}, (key, j) ∈ members →
      j.size number ≤ sizeMembers number members
  | [(key', j')], h => by
    obtain ⟨rfl, rfl⟩ := Prod.mk.inj (List.mem_singleton.mp h)
    rw [sizeMembers]
    omega
  | (key', j') :: m :: members, h => by
    rw [sizeMembers]
    rcases List.mem_cons.mp h with heq | hmem
    · obtain ⟨rfl, rfl⟩ := Prod.mk.inj heq
      omega
    · have hmembers := size_le_sizeMembers hmem
      omega

/-- A member of an object is no longer than the object. -/
theorem size_le_size_object {key : String} {j : Json} {members : List (String × Json)}
    (h : (key, j) ∈ members) : j.size number ≤ (object members).size number := by
  have hmembers : j.size number ≤ sizeMembers number members := size_le_sizeMembers h
  rw [size]
  omega

end Size

/-! ## Members -/

mutual

/-- No object names a member twice. -/
def strict : Json → Bool
  | .array items => strictAll items
  | .object members => decide (members.map (·.1)).Nodup && strictMembers members
  | _ => true

/-- Every item is strict. -/
def strictAll : List Json → Bool
  | [] => true
  | j :: js => j.strict && strictAll js

/-- Every member is strict. -/
def strictMembers : List (String × Json) → Bool
  | [] => true
  | (_, j) :: members => j.strict && strictMembers members

end

attribute [local simp] strict strictAll strictMembers

/-- A list is strict when its items are. -/
theorem strict_array {items : List Json} :
    (array items).strict = true ↔ ∀ j ∈ items, j.strict = true := by
  rw [strict]
  induction items with
  | nil => simp
  | cons j js ih => rw [strictAll, Bool.and_eq_true, ih, List.forall_mem_cons]

/-- An object is strict when its keys are distinct and its members strict. -/
theorem strict_object {members : List (String × Json)} :
    (object members).strict = true ↔
      (members.map (·.1)).Nodup ∧ ∀ m ∈ members, m.2.strict = true := by
  have hmembers : strictMembers members = true ↔ ∀ m ∈ members, m.2.strict = true := by
    induction members with
    | nil => simp
    | cons m members ih => rw [strictMembers, Bool.and_eq_true, ih, List.forall_mem_cons]
  rw [strict, Bool.and_eq_true, decide_eq_true_eq, hmembers]

@[simp] theorem strict_null : null.strict = true := rfl
@[simp] theorem strict_bool (b : Bool) : (bool b).strict = true := rfl
@[simp] theorem strict_number (q : ℚ) : (number q).strict = true := rfl
@[simp] theorem strict_string (s : String) : (string s).strict = true := rfl

end Json

end Markup

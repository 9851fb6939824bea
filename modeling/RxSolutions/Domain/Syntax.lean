import RxSolutions.Domain.Types

/-!
# The syntax of names, digests and counters

The source checks the syntax of a name, a digest or a counter when a value is made, so that
every value has it. Here the syntax is a predicate, for the places where a text is read back.
-/

namespace RxSolutions.Domain

/-- `is_ascii_alphanumeric`, or one of the other characters of a name. -/
def isNameChar (c : Char) : Bool := c.isAlphanum || c = '.' || c = '_' || c = '/' || c = '-'

/-- At most 128 characters, the first a letter or a digit. -/
def IsName (s : String) : Prop :=
  s.toList.length ≤ 128 ∧ (∃ c ∈ s.toList.head?, c.isAlphanum = true) ∧
    ∀ c ∈ s.toList, isNameChar c = true

instance (s : String) : Decidable (IsName s) :=
  decidable_of_iff (s.toList.length ≤ 128 ∧ s.toList.head?.any Char.isAlphanum = true ∧
    s.toList.all isNameChar = true) (by simp [IsName, Option.any_eq_true])

/-- A digit or one of the letters from `a` to `f`. -/
def isHex (c : Char) : Bool := c.isDigit || ('a' ≤ c && c ≤ 'f')

/-- 64 lowercase hexadecimal characters. -/
def IsDigest (s : String) : Prop := s.toList.length = 64 ∧ ∀ c ∈ s.toList, isHex c = true

instance (s : String) : Decidable (IsDigest s) :=
  decidable_of_iff (s.toList.length = 64 ∧ s.toList.all isHex = true) (by simp [IsDigest])

/-- The counter that a text of digits spells, read to its end. -/
def fromChars (s : String) : Option Counter :=
  if s.toList ≠ [] ∧ s.toList.all Char.isDigit = true ∧
      Nat.ofDigitChars 10 s.toList 0 < counterBound then
    some (Nat.ofDigitChars 10 s.toList 0)
  else none

/-- The decimal text of a counter has digits only. -/
theorem isDigit_toString {n : ℕ} {c : Char} (h : c ∈ (toString n).toList) : c.isDigit = true := by
  rw [Nat.toString_eq_repr, Nat.toList_repr] at h
  exact Nat.isDigit_of_mem_toDigits (by decide) (by decide) h

/-- The decimal text of a number spells the number. -/
theorem ofDigitChars_toString (n : ℕ) : Nat.ofDigitChars 10 (toString n).toList 0 = n := by
  rw [Nat.toString_eq_repr, Nat.toList_repr, Nat.ofDigitChars_ten_toDigits]

theorem toString_injective : Function.Injective (toString : ℕ → String) := by
  intro m n h
  rw [← ofDigitChars_toString m, h, ofDigitChars_toString]

variable {n : Counter}

theorem fromChars_toString (h : n < counterBound) :
    fromChars (toString n) = some n := by
  have hvalue : Nat.ofDigitChars 10 (toString n).toList 0 = n := ofDigitChars_toString n
  have hne : (toString n).toList ≠ [] := by
    rw [Nat.toString_eq_repr, Nat.toList_repr]
    exact Nat.toDigits_ne_nil
  have hdigits : (toString n).toList.all Char.isDigit = true :=
    List.all_eq_true.mpr fun c => isDigit_toString
  rw [fromChars, hvalue, if_pos ⟨hne, hdigits, h⟩]

/-- 32 hexadecimal characters in groups of 8, 4, 4, 4 and 12. -/
def IsUuid (s : String) : Prop :=
  s.toList.length = 36 ∧ ∀ e ∈ s.toList.zipIdx,
    if e.2 ∈ [8, 13, 18, 23] then e.1 = '-' else isHex e.1 = true

instance (s : String) : Decidable (IsUuid s) :=
  decidable_of_iff (s.toList.length = 36 ∧ s.toList.zipIdx.all (fun e =>
    if e.2 ∈ [8, 13, 18, 23] then e.1 = '-' else isHex e.1) = true) (by
      simp only [IsUuid, List.all_eq_true]
      refine and_congr_right fun _ => forall₂_congr fun e _ => ?_
      split <;> simp_all)

/-- A counter as a decimal text without leading zeros. -/
def readCounter (s : String) : Option Counter :=
  if 1 < s.toList.length ∧ s.toList.head? = some '0' then none else fromChars s

/-- A decimal text of more than one digit does not start with a zero. -/
theorem head?_toDigits {n : ℕ} (h : 10 ≤ n) : (Nat.toDigits 10 n).head? ≠ some '0' := by
  induction n using Nat.strong_induction_on with
  | h n ih =>
  rw [Nat.toDigits_of_base_le (by decide) h]
  by_cases hten : 10 ≤ n / 10
  · have hlt : n / 10 < n := Nat.div_lt_self (by omega) (by decide)
    rw [List.head?_append_of_ne_nil _ Nat.toDigits_ne_nil]
    exact ih (n / 10) hlt hten
  · rw [Nat.toDigits_of_lt_base (by omega : n / 10 < 10)]
    simp only [List.cons_append, List.head?_cons, ne_eq, Option.some.injEq,
      Nat.digitChar_eq_zero]
    omega

theorem readCounter_toString (h : n < counterBound) :
    readCounter (toString n) = some n := by
  rw [readCounter, if_neg, fromChars_toString h]
  rw [Nat.toString_eq_repr, Nat.toList_repr]
  rintro ⟨hlength, hhead⟩
  by_cases hten : 10 ≤ n
  · exact head?_toDigits hten hhead
  · rw [Nat.toDigits_of_lt_base (Nat.lt_of_not_le hten)] at hlength
    simp at hlength

/-- Whether an integer has 64 bits. -/
def IsInt64 (n : ℤ) : Prop := -2 ^ 63 ≤ n ∧ n < 2 ^ 63

instance (n : ℤ) : Decidable (IsInt64 n) := inferInstanceAs (Decidable (_ ∧ _))

/-- The integer of a signed decimal text, if it has 64 bits and the text is the one that spells
it. -/
def readInteger (s : String) : Option ℤ :=
  let value := match s.toList with
    | '-' :: digits => -(Nat.ofDigitChars 10 digits 0 : ℤ)
    | digits => (Nat.ofDigitChars 10 digits 0 : ℤ)
  if toString value = s ∧ IsInt64 value then some value else none

end RxSolutions.Domain

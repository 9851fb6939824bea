import Mathlib.Data.Finmap
import Mathlib.Data.Rat.Defs
import Mathlib.Data.String.Basic

/-!
# Shared value types

Names, identifiers and digests are strings here: their syntax is enforced when a
message is decoded, and `Domain.Syntax` states it for the functions that read a text
back. Counters are naturals, with the 64-bit bound stated where an addition or a
multiplication checks it.
-/

namespace RxSolutions.Domain

/-- A name; `Domain/Syntax` has its form. -/
abbrev Name := String

/-- An identifier. -/
abbrev Id := String

/-- A canonical SHA-256 digest in hexadecimal. -/
abbrev Digest := String

/-- An unsigned 64-bit counter. -/
abbrev Counter := ℕ

/-- One past the largest counter. -/
def counterBound : ℕ := 2 ^ 64

/-- `checked_add` on 64-bit counters. -/
def checkedAdd (a b : Counter) : Option Counter :=
  if a + b < counterBound then some (a + b) else none

/-- `checked_mul` on 64-bit counters. -/
def checkedMul (a b : Counter) : Option Counter :=
  if a * b < counterBound then some (a * b) else none

/-- `saturating_add` on 64-bit counters. -/
def saturatingAdd (a b : Counter) : Counter := min (a + b) (counterBound - 1)

/-- `Counter::increment`. -/
def increment (a : Counter) : Option Counter := checkedAdd a 1

theorem increment_eq_some {a b : Counter} (h : increment a = some b) : b = a + 1 := by
  unfold increment checkedAdd at h
  split at h
  · exact (Option.some.inj h).symm
  · cases h

/-- A tick count, comparable only with ticks of the same clock. -/
structure TimePoint where
  clockId : String
  ticksNs : Counter
  deriving DecidableEq, Repr

/-- How much older another point of the same clock is; `none` across clocks, for an
unnamed clock and for a point in the future. -/
def TimePoint.ageNs (now older : TimePoint) : Option Counter :=
  if now.clockId = "" ∨ now.clockId ≠ older.clockId then none
  else if older.ticksNs ≤ now.ticksNs then some (now.ticksNs - older.ticksNs)
  else none

/-- Reference to an immutable document. -/
structure ArtifactRef where
  sha256 : Digest
  schemaId : Name
  sizeBytes : Counter
  deriving DecidableEq, Repr

/-- A measured or commanded value. Finite doubles are read as the rationals they denote. -/
inductive TypedValue
  | boolean (value : Bool)
  | integer (value : ℤ)
  | real (value : ℚ)
  | symbol (value : Name)
  | reals (values : List ℚ)
  deriving DecidableEq

/-! ## Maps of counters -/

/-- Counters by name. -/
abbrev Counters := Finmap fun _ : Name => Counter

namespace Counters

/-- No counter that both maps hold is smaller in `new` than in `old`. -/
def NotBelow (new old : Counters) : Prop :=
  ∀ k ∈ new.keys, ∀ v ∈ new.lookup k, ∀ w ∈ old.lookup k, w ≤ v

instance (new old : Counters) : Decidable (new.NotBelow old) :=
  inferInstanceAs (Decidable (∀ k ∈ new.keys, ∀ v ∈ new.lookup k, ∀ w ∈ old.lookup k, w ≤ v))

/-- Every counter is positive. -/
def Positive (c : Counters) : Prop := ∀ k ∈ c.keys, ∀ v ∈ c.lookup k, 0 < v

instance (c : Counters) : Decidable c.Positive :=
  inferInstanceAs (Decidable (∀ k ∈ c.keys, ∀ v ∈ c.lookup k, 0 < v))

/-- Each counter `old` holds is still held by `new`, at the same value or a later one. -/
def Advances (old new : Counters) : Prop :=
  ∀ k w, old.lookup k = some w → ∃ v, new.lookup k = some v ∧ w ≤ v

theorem Advances.refl (c : Counters) : c.Advances c := fun _ w h => ⟨w, h, le_rfl⟩

theorem Advances.trans {a b c : Counters} (hab : a.Advances b) (hbc : b.Advances c) :
    a.Advances c := by
  intro k w hw
  obtain ⟨v, hv, hwv⟩ := hab k w hw
  obtain ⟨u, hu, hvu⟩ := hbc k v hv
  exact ⟨u, hu, hwv.trans hvu⟩

theorem Advances.antisymm {a b : Counters} (hab : a.Advances b) (hba : b.Advances a) : a = b := by
  apply Finmap.ext_lookup
  intro k
  apply Option.ext
  intro w
  constructor
  · intro hw
    obtain ⟨v, hv, hwv⟩ := hab k w hw
    obtain ⟨u, hu, hvu⟩ := hba k v hv
    obtain rfl := Option.some.inj (hw.symm.trans hu)
    rw [le_antisymm hwv hvu]
    exact hv
  · intro hw
    obtain ⟨v, hv, hwv⟩ := hba k w hw
    obtain ⟨u, hu, hvu⟩ := hab k v hv
    obtain rfl := Option.some.inj (hw.symm.trans hu)
    rw [le_antisymm hwv hvu]
    exact hv

/-- Extending a map by counters that are not below it moves every counter forward. -/
theorem NotBelow.advances_union {new old : Counters} (h : new.NotBelow old) :
    old.Advances (new ∪ old) := by
  intro k w hw
  by_cases hk : k ∈ new
  · obtain ⟨v, hv⟩ := Finmap.mem_iff.mp hk
    refine ⟨v, (Finmap.lookup_union_left hk).trans hv, ?_⟩
    exact h k (Finmap.mem_keys.mpr hk) v hv w hw
  · exact ⟨w, (Finmap.lookup_union_right hk).trans hw, le_rfl⟩

end Counters

end RxSolutions.Domain

import Mathlib.Algebra.Order.Ring.Nat
import Mathlib.Data.UInt

/-!
# Numbers as bytes, the lowest first

A number below `256 ^ w` is exactly `w` bytes, and every `w` bytes are such a number.
-/

namespace Durable.LittleEndian

/-- The lowest `w` bytes of a number, the lowest first. -/
def bytes : ℕ → ℕ → List UInt8
  | 0, _ => []
  | w + 1, n => UInt8.ofNat n :: bytes w (n / 256)

/-- The number that some bytes stand for. -/
def value : List UInt8 → ℕ
  | [] => 0
  | b :: rest => b.toNat + 256 * value rest

@[simp] theorem length_bytes (w n : ℕ) : (bytes w n).length = w := by
  induction w generalizing n with
  | zero => rfl
  | succ w ih => rw [bytes, List.length_cons, ih]

theorem value_bytes {w n : ℕ} (h : n < 256 ^ w) : value (bytes w n) = n := by
  induction w generalizing n with
  | zero =>
    rw [Nat.pow_zero, Nat.lt_one_iff] at h
    rw [h]
    rfl
  | succ w ih =>
    have hrest : n / 256 < 256 ^ w := by
      rw [Nat.div_lt_iff_lt_mul (by decide), ← Nat.pow_succ]
      exact h
    have hlow : (UInt8.ofNat n).toNat = n % 256 := UInt8.toNat_ofNat'
    rw [bytes, value, ih hrest, hlow, Nat.add_comm]
    exact Nat.div_add_mod n 256

theorem value_lt (l : List UInt8) : value l < 256 ^ l.length := by
  induction l with
  | nil => exact Nat.one_pos
  | cons b rest ih =>
    have hb := b.toNat_lt
    rw [value, List.length_cons, Nat.pow_succ]
    omega

theorem bytes_value (l : List UInt8) : bytes l.length (value l) = l := by
  induction l with
  | nil => rfl
  | cons b rest ih =>
    have hb := b.toNat_lt
    have hlow : UInt8.ofNat (b.toNat + 256 * value rest) = b := by
      apply UInt8.toNat_inj.mp
      rw [UInt8.toNat_ofNat']
      omega
    have hrest : (b.toNat + 256 * value rest) / 256 = value rest := by omega
    rw [List.length_cons, value, bytes, hlow, hrest, ih]

/-- Texts of one length that stand for one number are the same. -/
theorem eq_bytes_iff {w n : ℕ} (h : n < 256 ^ w) {l : List UInt8} :
    l = bytes w n ↔ l.length = w ∧ value l = n := by
  constructor
  · rintro rfl
    exact ⟨length_bytes w n, value_bytes h⟩
  · rintro ⟨rfl, rfl⟩
    exact (bytes_value l).symm

end Durable.LittleEndian

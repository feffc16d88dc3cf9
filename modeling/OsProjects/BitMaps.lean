import Mathlib.Data.Nat.Bitwise
import OsProjects.ByteMemory

/-! # Bit maps

Bits in a memory, eight to a byte, least significant first. They are tested, set and cleared with
a mask, as in C.
-/
namespace BitMaps

open ByteMemory

/-- `1 << (i % 8)`. -/
def mask (i : ℕ) : UInt8 := UInt8.ofNat (2 ^ (i % 8))

def getBit (m : Mem) (i : ℕ) : Bool := m (i / 8) &&& mask i ≠ 0
def setBit (m : Mem) (i : ℕ) : Mem := Function.update m (i / 8) (m (i / 8) ||| mask i)
def clearBit (m : Mem) (i : ℕ) : Mem := Function.update m (i / 8) (m (i / 8) &&& ~~~ mask i)

section Laws

variable {m m' : Mem} {i j : ℕ} {x : UInt8}

theorem toNat_mask : (mask i).toNat = 2 ^ (i % 8) := by
  have h : 2 ^ (i % 8) < 2 ^ 8 := Nat.pow_lt_pow_right (by omega) (Nat.mod_lt i (by omega))
  rw [mask, UInt8.toNat_ofNat']
  exact Nat.mod_eq_of_lt h

/-- Testing with a mask is testing one bit. -/
theorem and_mask_ne_zero : x &&& mask i ≠ 0 ↔ x.toNat.testBit (i % 8) = true := by
  rw [ne_eq, ← UInt8.toNat_inj, UInt8.toNat_and, toNat_mask, Nat.and_two_pow]
  cases x.toNat.testBit (i % 8) <;> simp

theorem getBit_iff : getBit m i = true ↔ (m (i / 8)).toNat.testBit (i % 8) = true := by
  rw [getBit, decide_eq_true_iff]
  exact and_mask_ne_zero

theorem toNat_or_mask : (x ||| mask i).toNat.testBit (j % 8) =
    (x.toNat.testBit (j % 8) || decide (i % 8 = j % 8)) := by
  rw [UInt8.toNat_or, toNat_mask, Nat.testBit_or, Nat.testBit_two_pow]

theorem toNat_and_not_mask : (x &&& ~~~ mask i).toNat.testBit (j % 8) =
    (x.toNat.testBit (j % 8) && !decide (i % 8 = j % 8)) := by
  have hj : j % 8 < 8 := Nat.mod_lt j (by omega)
  have hnot : (~~~ mask i).toNat.testBit (j % 8) = !decide (i % 8 = j % 8) := by
    have : (~~~ mask i).toNat = 2 ^ 8 - ((mask i).toNat + 1) := by
      have hsize : UInt8.size = 2 ^ 8 := rfl
      rw [UInt8.toNat_not]
      omega
    rw [this, Nat.testBit_two_pow_sub_succ (mask i).toNat_lt, toNat_mask, Nat.testBit_two_pow]
    simp [hj]
  rw [UInt8.toNat_and, Nat.testBit_and, hnot]

theorem getBit_setBit : getBit (setBit m i) j = (decide (i = j) || getBit m j) := by
  rw [Bool.eq_iff_iff, getBit_iff, setBit, Function.update_apply, Bool.or_eq_true, getBit_iff]
  split_ifs with h
  · rw [toNat_or_mask, ← h, Bool.or_eq_true, decide_eq_true_iff, decide_eq_true_iff, or_comm]
    refine or_congr_left ⟨fun hm => ?_, fun he => by rw [he]⟩
    omega
  · refine ⟨.inr, fun ht => ht.resolve_left fun he => h ?_⟩
    rw [of_decide_eq_true he]

theorem getBit_clearBit : getBit (clearBit m i) j = (!decide (i = j) && getBit m j) := by
  rw [Bool.eq_iff_iff, getBit_iff, clearBit, Function.update_apply, Bool.and_eq_true, getBit_iff]
  split_ifs with h
  · rw [toNat_and_not_mask, ← h, Bool.and_eq_true, Bool.not_eq_true', Bool.not_eq_true',
      decide_eq_false_iff_not, decide_eq_false_iff_not, and_comm]
    refine and_congr_left fun _ => not_congr ⟨fun hm => ?_, fun he => by rw [he]⟩
    omega
  · refine ⟨fun ht => ⟨?_, ht⟩, And.right⟩
    rw [Bool.not_eq_true', decide_eq_false_iff_not]
    rintro rfl
    exact h rfl

end Laws

end BitMaps

import Mathlib.Data.Int.ModEq
import Mathlib.Tactic.Linarith
import Mathlib.Tactic.Ring
import LockServo.Register.Word

/-!
# Two's complement fields

The low bits of a word, read with a sign, are the remainder of the word that lies around zero.
-/

namespace LockServo.Register

/-! ## Remainders around zero -/

section

variable {n c : ℤ} {half unit : ℕ}

/-- The remainder lies in the half-open interval around zero, and there is only one there. -/
theorem bmod_two_mul_eq_iff (pos : 0 < half) :
    n.bmod (2 * half) = c ↔ -(half : ℤ) ≤ c ∧ c < half ∧ ((2 * half : ℕ) : ℤ) ∣ c - n := by
  have low : -(((2 * half : ℕ) : ℤ) / 2) = -(half : ℤ) := by omega
  have high : (((2 * half : ℕ) : ℤ) + 1) / 2 = half := by omega
  rw [Int.bmod_eq_iff (by omega), low, high]

theorem mul_bmod_mul (pos : 0 < half) (unit_pos : 0 < unit) :
    (n * unit).bmod (2 * half * unit) = n.bmod (2 * half) * unit := by
  obtain ⟨low, high, q, quotient⟩ := (bmod_two_mul_eq_iff (n := n) pos).mp rfl
  have unit_pos' : (0 : ℤ) < unit := by exact_mod_cast unit_pos
  rw [Nat.mul_assoc, bmod_two_mul_eq_iff (Nat.mul_pos pos unit_pos)]
  refine ⟨?_, ?_, q, ?_⟩
  · push_cast
    linarith [mul_le_mul_of_nonneg_right low unit_pos'.le]
  · push_cast
    exact mul_lt_mul_of_pos_right high unit_pos'
  · rw [← sub_mul, quotient]
    push_cast
    ring

end

/-! ## Sign extension -/

theorem toBitVec_shift : ∀ unused : Fin 32,
    (UInt32.ofNat unused).toInt32.toBitVec.smod 32 = BitVec.ofNat 32 unused := by decide

theorem toInt_shiftRight {unused : ℕ} (small : unused < 32) (x : Int32) :
    (x >>> (UInt32.ofNat unused).toInt32).toInt = x.toInt / (2 ^ unused : ℕ) := by
  rw [← Int32.toInt_toBitVec, Int32.toBitVec_shiftRight, toBitVec_shift ⟨unused, small⟩,
    BitVec.sshiftRight_eq', BitVec.toInt_sshiftRight, Int.shiftRight_eq_div_pow, Int32.toInt_toBitVec,
    BitVec.toNat_ofNat, Nat.mod_eq_of_lt (by omega)]

theorem toInt_shiftLeft {unused : ℕ} (small : unused < 32) (raw : UInt32) :
    (raw <<< UInt32.ofNat unused).toInt32.toInt = (raw.toNat * (2 ^ unused : ℕ) : ℤ).bmod (2 ^ 32) := by
  have shifted : (raw <<< UInt32.ofNat unused).toNat = raw.toNat * 2 ^ unused % 2 ^ 32 := by
    rw [UInt32.toNat_shiftLeft, Nat.shiftLeft_eq, UInt32.toNat_ofNat', Nat.mod_mod_of_dvd _ (by decide),
      Nat.mod_eq_of_lt (a := unused) small]
  rw [← Int32.toInt_toBitVec, UInt32.toBitVec_toInt32, BitVec.toInt_eq_toNat_bmod, UInt32.toNat_toBitVec,
    shifted, Int.natCast_mod, Int.emod_bmod, Nat.cast_mul]

/-- Bits above the width are shifted out, and the way back carries the sign along. -/
theorem signExtend_eq_bmod {width : ℕ} (width_pos : 0 < width) (width_le : width ≤ 32) (raw : UInt32) :
    signExtend raw width = (raw.toNat : ℤ).bmod (2 ^ width) := by
  obtain ⟨k, rfl⟩ := Nat.exists_eq_succ_of_ne_zero width_pos.ne'
  have whole : 2 ^ 32 = 2 * 2 ^ k * 2 ^ (32 - (k + 1)) := by
    rw [← pow_succ', ← pow_add]
    congr 1
    omega
  have unit_pos := Nat.two_pow_pos (32 - (k + 1))
  change ((raw <<< UInt32.ofNat (32 - (k + 1))).toInt32 >>>
    (UInt32.ofNat (32 - (k + 1))).toInt32).toInt = _
  rw [toInt_shiftRight (by omega), toInt_shiftLeft (by omega), whole,
    mul_bmod_mul (Nat.two_pow_pos k) unit_pos, Int.mul_ediv_cancel _ (by exact_mod_cast unit_pos.ne'),
    pow_succ']

/-- Of the numbers that agree with a word in its low bits, one lies around zero. -/
theorem signExtend_eq_iff {width : ℕ} (width_pos : 0 < width) (width_le : width ≤ 32) {raw : UInt32} {c : ℤ} :
    signExtend raw width = c ↔
      -2 ^ (width - 1) ≤ c ∧ c ≤ 2 ^ (width - 1) - 1 ∧ c ≡ raw.toNat [ZMOD 2 ^ width] := by
  obtain ⟨k, rfl⟩ := Nat.exists_eq_succ_of_ne_zero width_pos.ne'
  have half : ((2 ^ k : ℕ) : ℤ) = 2 ^ k := by push_cast; rfl
  have whole : ((2 * 2 ^ k : ℕ) : ℤ) = 2 ^ (k + 1) := by push_cast; rw [pow_succ']
  rw [signExtend_eq_bmod width_pos width_le, pow_succ', bmod_two_mul_eq_iff (Nat.two_pow_pos k), half, whole,
    ← Int.modEq_iff_dvd, Int.modEq_comm, Nat.succ_sub_one, Int.le_sub_one_iff]

end LockServo.Register

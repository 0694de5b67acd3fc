import LockServo.Register.Word

/-!
# Bits of a register word

What each word operation does to a single bit, for every mask and every shift below 32. A word is
known by its bits, so two words with the same ones are equal.
-/

namespace LockServo.Register

/-- The bit at a place counted from the lowest; past the word every bit is off. -/
def bit (word : UInt32) (k : Nat) : Bool := word.toBitVec.getLsbD k

theorem bit_of_le {word : UInt32} {k : Nat} (h : 32 ≤ k) : bit word k = false :=
  BitVec.getLsbD_of_ge word.toBitVec k h

theorem eq_of_bit {v w : UInt32} (h : ∀ k < 32, bit v k = bit w k) : v = w := by
  apply UInt32.toBitVec_inj.mp
  apply BitVec.eq_of_getLsbD_eq
  exact h

theorem bit_of_toNat_eq {word : UInt32} {width : Nat} (h : word.toNat = 1 <<< width - 1) (k : Nat) :
    bit word k = decide (k < width) := by
  change word.toNat.testBit k = _
  rw [h, Nat.one_shiftLeft, Nat.testBit_two_pow_sub_one]

@[simp] theorem bit_zero (k : Nat) : bit 0 k = false := by
  simp [bit]

theorem bit_one (k : Nat) : bit 1 k = decide (k = 0) := by
  have ones : (1 : UInt32).toNat = 1 <<< 1 - 1 := rfl
  rw [bit_of_toNat_eq ones, decide_eq_decide, Nat.lt_one_iff]

@[simp] theorem bit_and (v w : UInt32) (k : Nat) : bit (v &&& w) k = (bit v k && bit w k) := by
  simp [bit]

@[simp] theorem bit_or (v w : UInt32) (k : Nat) : bit (v ||| w) k = (bit v k || bit w k) := by
  simp [bit]

theorem bit_not {k : Nat} (h : k < 32) (w : UInt32) : bit (~~~w) k = !bit w k := by
  simp [bit, h]

theorem bit_shiftLeft {s : UInt32} (hs : s.toNat < 32) (w : UInt32) {k : Nat} (hk : k < 32) :
    bit (w <<< s) k = (decide (s.toNat ≤ k) && bit w (k - s.toNat)) := by
  have hmod : (s.toBitVec % 32).toNat = s.toNat := Nat.mod_eq_of_lt hs
  rw [bit, UInt32.toBitVec_shiftLeft, BitVec.shiftLeft_eq', hmod, BitVec.getLsbD_shiftLeft]
  by_cases hle : s.toNat ≤ k
  · simp [hk, hle, Nat.not_lt.mpr hle, bit]
  · simp [hle, Nat.lt_of_not_le hle]

theorem bit_shiftRight {s : UInt32} (hs : s.toNat < 32) (w : UInt32) (k : Nat) :
    bit (w >>> s) k = bit w (s.toNat + k) := by
  have hmod : s.toNat % 32 = s.toNat := Nat.mod_eq_of_lt hs
  simp [bit, UInt32.toBitVec_shiftRight, BitVec.getLsbD_ushiftRight, hmod]

theorem bit_getField {s : UInt32} (hs : s.toNat < 32) (word mask : UInt32) (k : Nat) :
    bit (getField word mask s) k = (bit word (s.toNat + k) && bit mask k) := by
  rw [getField, bit_and, bit_shiftRight hs]

/-- A field write replaces the bits that its shifted mask covers, and those only. -/
theorem bit_setField {s : UInt32} (hs : s.toNat < 32) (word value mask : UInt32) {k : Nat}
    (hk : k < 32) :
    bit (setField word value mask s) k =
      if s.toNat ≤ k ∧ bit mask (k - s.toNat) = true then bit value (k - s.toNat) else bit word k := by
  rw [setField, bit_or, bit_and, bit_not hk, bit_shiftLeft hs _ hk, bit_shiftLeft hs _ hk, bit_and]
  by_cases hle : s.toNat ≤ k <;> cases hm : bit mask (k - s.toNat) <;> simp [hle]

theorem bit_setBits (word bits mask : UInt32) (k : Nat) :
    bit (setBits word bits mask) k = (bit word k || (bit bits k && bit mask k)) := by
  rw [setBits, bit_or, bit_and]

theorem bit_clearBits (word bits mask : UInt32) {k : Nat} (hk : k < 32) :
    bit (clearBits word bits mask) k = (bit word k && !(bit bits k && bit mask k)) := by
  rw [clearBits, bit_and, bit_not hk, bit_and]

end LockServo.Register

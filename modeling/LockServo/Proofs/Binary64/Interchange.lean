import Mathlib.Algebra.Group.Nat.Defs
import LockServo.Binary64.Rounding

/-!
# Interchange bits of doubles

Every pattern of 64 bits that is not a NaN is a double of its own, zeros and infinities with their signs
and subnormal numbers included, and is the pattern that the double is written as.
-/

namespace LockServo.Binary64

/-! ## The last place under an exponent -/

theorem lastPlace_shiftLeft {m k : Nat} (small : m < 1 <<< 53) (normal : k = 0 ∨ 1 <<< 52 ≤ m) :
    lastPlace (m <<< k) = k := by
  have most := lastPlace_shiftLeft_le (e := k) small
  rcases normal with rfl | large
  · exact Nat.le_zero.mp most
  · have least : 52 + k ≤ (m <<< k).log2 := by
      rw [Nat.one_shiftLeft] at large
      have pos : m <<< k ≠ 0 := by
        rw [Nat.shiftLeft_eq]
        exact Nat.mul_ne_zero (by omega) (Nat.ne_of_gt (Nat.two_pow_pos k))
      rw [Nat.le_log2 pos, Nat.pow_add, Nat.shiftLeft_eq]
      exact Nat.mul_le_mul_right _ large
    unfold lastPlace at *
    omega

theorem representable_shiftLeft {m k : Nat} (small : m < 1 <<< 53) (normal : k = 0 ∨ 1 <<< 52 ≤ m)
    (finite : k < 2046) : Representable (m <<< k) := by
  constructor
  · rw [Nat.one_shiftLeft] at small
    rw [overflow, Nat.one_shiftLeft, Nat.shiftLeft_eq]
    calc m * 2 ^ k < 2 ^ 53 * 2 ^ k := Nat.mul_lt_mul_of_pos_right small (Nat.two_pow_pos k)
      _ = 2 ^ (53 + k) := (Nat.pow_add 2 53 k).symm
      _ ≤ 2 ^ 2098 := Nat.pow_le_pow_right Nat.two_pos (by omega)
  · rw [lastPlace_shiftLeft small normal, Nat.one_shiftLeft, Nat.shiftLeft_eq]
    exact Nat.dvd_mul_left _ _

theorem toBits_ofUnits_shiftLeft {m k : Nat} (negative : Bool) (small : m < 1 <<< 53)
    (normal : k = 0 ∨ 1 <<< 52 ≤ m) (finite : k < 2046) :
    (ofUnits negative (m <<< k)).toBits = negative.toNat <<< 63 + k <<< 52 + m := by
  rw [ofUnits_of_representable (representable_shiftLeft small normal finite), toBits,
    lastPlace_shiftLeft small normal, Nat.shiftLeft_shiftRight]

/-! ## The three fields -/

theorem fields_eq {n : Nat} (small : n < 2 ^ 64) :
    (n >>> 63 % 2 == 1).toNat <<< 63 + (n >>> 52 % 0x800) <<< 52 + n % (1 <<< 52) = n := by
  have sign : (n >>> 63 % 2 == 1).toNat = n >>> 63 := by
    have flag : n >>> 63 = 0 ∨ n >>> 63 = 1 := by omega
    rcases flag with h | h <;> rw [h] <;> rfl
  rw [sign, Nat.shiftRight_eq_div_pow, Nat.shiftRight_eq_div_pow, Nat.one_shiftLeft]
  omega

theorem toBits_ofBits (bits : UInt64) (number : (ofBits bits.toNat).isNaN = false) :
    (ofBits bits.toNat).toBits = bits.toNat := by
  have fields := fields_eq bits.toNat_lt
  have fraction := Nat.mod_lt bits.toNat (show 0 < 1 <<< 52 by decide)
  have exponent := Nat.mod_lt (bits.toNat >>> 52) (show 0 < 0x800 by decide)
  simp only [ofBits] at number ⊢
  generalize (bits.toNat >>> 63 % 2 == 1) = negative at *
  generalize bits.toNat >>> 52 % 0x800 = e at *
  generalize bits.toNat % (1 <<< 52) = f at *
  split at number
  · rename_i top
    split at number
    · rename_i zero
      rw [if_pos top, if_pos zero, toBits, ← fields, top, zero, Nat.add_zero]
    · cases number
  · rename_i below
    rw [if_neg below]
    split
    · rename_i subnormal
      have small : f < 1 <<< 53 := Nat.lt_trans fraction (by decide)
      have units := toBits_ofUnits_shiftLeft (k := 0) negative small (.inl rfl) (by omega)
      rw [← fields, subnormal]
      exact units
    · rename_i normal
      have small : 1 <<< 52 + f < 1 <<< 53 := Nat.add_lt_add_left fraction (1 <<< 52)
      have carried : e <<< 52 = (e - 1) <<< 52 + 1 <<< 52 := by omega
      rw [toBits_ofUnits_shiftLeft negative small (.inr (Nat.le_add_right _ _)) (by omega), ← fields,
        carried, ← Nat.add_assoc, ← Nat.add_assoc]

end LockServo.Binary64

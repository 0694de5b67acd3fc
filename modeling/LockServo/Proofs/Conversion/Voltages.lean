import LockServo.Proofs.Binary64.Overflow
import LockServo.Proofs.Conversion.Counts
import LockServo.Proofs.ParameterSet.Transfer

/-!
# Decoded voltages in doubles

A decoded voltage is a number whatever the correction. Under a gain in the normal range and an offset of
at most half the largest power of two it is finite; under a gain far below that range every count
but zero is infinite.
-/

namespace LockServo

open Arithmetic Binary64

theorem Rounded.abs_le {exact result bound : ℚ} (h : Rounded exact result) (one_le : 1 ≤ bound)
    (le : |exact| ≤ bound) : |result| ≤ bound + bound / 64 := by
  have near := h.near smallestStep_le one_le le
  have := abs_sub_abs_le_abs_sub result exact
  linarith

/-! ## The correction in use -/

theorem Correction.positive_gain (c : Correction Binary64) : c.sanitized.gain.Positive := by
  change (c.usableGain.value).Positive
  unfold usableGain
  split
  · rename_i usable
    obtain ⟨finite, above⟩ := Bool.and_eq_true_iff.mp usable
    rw [ofNat_zero] at above
    exact ⟨finite, above⟩
  · change (ofNat 1 : Binary64).Positive
    decide +kernel

theorem Correction.toRat_gain_pos (c : Correction Binary64) : 0 < c.sanitized.gain.toRat := by
  have above := c.positive_gain.2
  have zero : (Binary64.zero false).toRat? = some 0 := by decide +kernel
  rw [Binary64.less_eq zero c.uses_sanitized.gain] at above
  exact of_decide_eq_true above

namespace Scale

/-- Scales of one volt over at most fourteen bits, which no count exceeds. -/
structure OneVolt (s : Scale Binary64) : Prop where
  fullScale : s.fullScale = ofNat 1
  span_pos : 0 < s.span
  span_le : s.span ≤ 2 ^ 14
  count_le (w : UInt32) : |s.count w| ≤ s.span

theorem bipolar_mask : (bipolar : Scale Binary64).mask = 0x3FFF :=
  unipolar_mask (ν := Binary64)

theorem unipolar_oneVolt : (unipolar : Scale Binary64).OneVolt where
  fullScale := rfl
  span_pos := by decide
  span_le := by decide
  count_le := unipolar.abs_count_le

theorem bipolar_oneVolt : (bipolar : Scale Binary64).OneVolt where
  fullScale := rfl
  span_pos := by decide
  span_le := by decide
  count_le := bipolar.abs_count_le

theorem count_nonneg {s : Scale Binary64} (unsigned : s.signed = false) (w : UInt32) : 0 ≤ s.count w := by
  rw [count_of_unsigned s unsigned]
  exact Int.natCast_nonneg _

variable {s : Scale Binary64} (unit : s.OneVolt) {c : Correction Binary64} (w : UInt32)
include unit

namespace OneVolt

/-- The count as a part of the span. -/
theorem part_near :
    ∃ a, (ofInt (s.count w) / ofNat s.span : Binary64).toRat? = some a ∧
      |a - s.count w / s.span| ≤ 1 / 2 ^ 52 ∧ |(s.count w : ℚ) / s.span| ≤ 1 ∧
      (0 ≤ s.count w → 0 ≤ a) := by
  have span_pos : (0 : ℚ) < s.span := by exact_mod_cast unit.span_pos
  have whole : |(s.count w : ℚ) / s.span| ≤ 1 := by
    rw [abs_div, abs_of_pos span_pos, div_le_one span_pos]
    exact_mod_cast unit.count_le w
  have count := unit.count_le w
  have span_le := unit.span_le
  obtain ⟨a, ha, near, sign⟩ := Accurate.near_div (ν := Binary64) 1
    (Accurate.toRat?_ofInt (by omega)) (Accurate.toRat?_ofNat (by omega)) span_pos.ne' le_rfl
    (by norm_num) whole
  refine ⟨a, ha, near, whole, fun nonneg => sign (div_nonneg ?_ span_pos.le)⟩
  exact_mod_cast nonneg

theorem positive_fullScale : s.fullScale.Positive := by
  rw [unit.fullScale]
  decide +kernel

theorem isNaN_volts : (s.volts c (ofNat 0) w).isNaN = false := by
  obtain ⟨a, ha, -, -⟩ := unit.part_near w
  have zero : (ofNat 0 : Binary64).isFinite = true := by decide +kernel
  have divided := isNaN_div (isNaN_eq ha) c.positive_gain
  have scaled := isNaN_mul divided unit.positive_fullScale
  exact isNaN_add (isNaN_add scaled c.finite_sanitized.2) zero

theorem finite_volts (gain : 1 / 2 ^ 1022 ≤ c.sanitized.gain.toRat)
    (offset : |c.sanitized.offset.toRat| ≤ 2 ^ 1023) : (s.volts c (ofNat 0) w).isFinite = true := by
  obtain ⟨a, ha, near, whole, -⟩ := unit.part_near w
  have positive := c.toRat_gain_pos
  have fullScale : s.fullScale.toRat? = some 1 := by
    rw [unit.fullScale]
    decide +kernel
  have zero : (ofNat 0 : Binary64).toRat? = some 0 := by decide +kernel
  obtain ⟨t, ht, one_le⟩ : ∃ u : ℚ, u = 2 ^ 1021 ∧ 1 ≤ u := ⟨_, rfl, one_le_pow₀ one_le_two⟩
  have reach_eq : reach = 7 * t := by rw [ht, reach]
  have offset' : |c.sanitized.offset.toRat| ≤ 4 * t := by
    refine offset.trans_eq ?_
    rw [ht, show (1023 : ℕ) = 2 + 1021 from rfl, pow_add]
    norm_num
  have gain' : 1 / (2 * t) ≤ c.sanitized.gain.toRat := by
    refine le_of_eq_of_le ?_ gain
    rw [ht, show (1022 : ℕ) = 1 + 1021 from rfl, pow_add, pow_one]
  clear ht gain offset
  have part : |a| ≤ 17 / 16 := by
    have := abs_sub_abs_le_abs_sub a (s.count w / s.span)
    linarith
  have quotient : |a / c.sanitized.gain.toRat| ≤ 17 / 8 * t := by
    rw [div_le_iff₀ (show 0 < 2 * t by linarith)] at gain'
    rw [abs_div, abs_of_pos positive, div_le_iff₀ positive]
    linarith
  obtain ⟨x, hx, rounded⟩ := div_rounded ha c.uses_sanitized.gain positive.ne' (by linarith)
  have x_le := rounded.abs_le (by linarith) quotient
  obtain ⟨y, hy, rounded⟩ := mul_rounded hx fullScale (by rw [mul_one]; linarith)
  have y_le := rounded.abs_le (show 1 ≤ 9 / 4 * t by linarith) (by rw [mul_one]; linarith)
  have sum := abs_add_le y c.sanitized.offset.toRat
  obtain ⟨z, hz, rounded⟩ := add_rounded hy c.uses_sanitized.offset (by linarith)
  have z_le := rounded.abs_le (show 1 ≤ 13 / 2 * t by linarith) (by linarith)
  obtain ⟨v, hv, -⟩ := add_rounded hz zero (by rw [add_zero]; linarith)
  obtain ⟨negative, m, hm, finite, -⟩ := exists_finite_of_toRat? hv
  exact congrArg Binary64.isFinite finite

theorem infinite_volts (gain : c.sanitized.gain.toRat ≤ 1 / 2 ^ 1040) (nonzero : s.count w ≠ 0) :
    ∃ negative, s.volts c (ofNat 0) w = .infinite negative ∧ (0 ≤ s.count w → negative = false) := by
  obtain ⟨a, ha, near, -, sign⟩ := unit.part_near w
  have positive := c.toRat_gain_pos
  have part : 1 / 2 ^ 15 ≤ |a| := by
    have span_pos : (0 : ℚ) < s.span := by exact_mod_cast unit.span_pos
    have span_le : (s.span : ℚ) ≤ 2 ^ 14 := by exact_mod_cast unit.span_le
    have count : (1 : ℚ) ≤ |(s.count w : ℚ)| := by exact_mod_cast Int.one_le_abs nonzero
    have least : 1 / 2 ^ 14 ≤ |(s.count w : ℚ) / s.span| := by
      rw [abs_div, abs_of_pos span_pos, le_div_iff₀ span_pos]
      linarith
    have := abs_sub_abs_le_abs_sub ((s.count w : ℚ) / s.span) a
    rw [abs_sub_comm] at this
    linarith
  have large : 2 ^ 1025 ≤ |a / c.sanitized.gain.toRat| := by
    have below : 2 ^ 1025 * c.sanitized.gain.toRat ≤ 2 ^ 1025 * (1 / 2 ^ 1040) := by gcongr
    have scaled : (2 : ℚ) ^ 1025 * (1 / 2 ^ 1040) = 1 / 2 ^ 15 := by
      rw [show (1040 : ℕ) = 1025 + 15 from rfl, pow_add]
      field_simp
    rw [abs_div, abs_of_pos positive, le_div_iff₀ positive]
    exact below.trans (scaled.le.trans part)
  have zero : (ofNat 0 : Binary64).isFinite = true := by decide +kernel
  have divided := div_eq_infinite ha c.uses_sanitized.gain positive.ne' large
  refine ⟨_, ?_, fun nonneg => decide_eq_false (div_nonneg (sign nonneg) positive.le).not_gt⟩
  rw [volts, divided, infinite_mul _ unit.positive_fullScale, infinite_add _ c.finite_sanitized.2,
    infinite_add _ zero]

/-! ### As read -/

theorem isNaN_decode : (s.decode c (ofNat 0) w).value.isNaN = false := by
  rw [decode_value]
  split
  · exact unit.isNaN_volts w
  · exact (unsigned_clampNonNegative _).not_isNaN

theorem finite_decode (gain : 1 / 2 ^ 1022 ≤ c.sanitized.gain.toRat)
    (offset : |c.sanitized.offset.toRat| ≤ 2 ^ 1023) :
    (s.decode c (ofNat 0) w).value.isFinite = true := by
  rw [decode_value]
  split
  · exact unit.finite_volts w gain offset
  · unfold clampNonNegative
    split
    · exact unit.finite_volts w gain offset
    · decide +kernel

theorem infinite_decode (gain : c.sanitized.gain.toRat ≤ 1 / 2 ^ 1040) (nonzero : s.count w ≠ 0) :
    (s.decode c (ofNat 0) w).value.isFinite = false := by
  obtain ⟨negative, infinite, sign⟩ := unit.infinite_volts w gain nonzero
  rw [decode_value, infinite]
  split
  · rfl
  · rename_i unsigned
    rw [sign (count_nonneg (Bool.eq_false_iff.mpr unsigned) w)]
    decide +kernel

end OneVolt

end Scale

end LockServo

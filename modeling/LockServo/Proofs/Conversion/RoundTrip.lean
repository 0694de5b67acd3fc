import LockServo.Proofs.Arithmetic.Accuracy
import LockServo.Proofs.Conversion.Counts

/-!
# Counts survive a round trip

A count that is decoded and encoded again comes back as itself, in every accurate number system. Each
quantity has its own budget: the errors of all roundings on the way stay below half a count where the
encoder rounds, and below the slack where it truncates.
-/

namespace LockServo

open Arithmetic Accurate

variable {ν : Type} [Arithmetic ν] [Accurate ν]

/-! ## Counts -/

theorem toRat?_count (n : UInt32) : toRat? (ofNat n.toNat : ν) = some (n.toNat : ℚ) := by
  have := n.toNat_lt
  exact toRat?_ofNat (by omega)

theorem roundAway_count {x : ν} {a : ℚ} {n : UInt32} (hx : toRat? x = some a)
    (near : |a - n.toNat| < 1 / 2) : toRat? (roundAway x) = some (n.toNat : ℚ) := by
  have small : |(n.toNat : ℤ)| ≤ 2 ^ 50 := by
    have := n.toNat_lt
    rw [Nat.abs_cast]
    omega
  exact_mod_cast toRat?_roundAway hx (n := n.toNat) (by exact_mod_cast near) small

theorem truncate_count {x : ν} {n : UInt32} (hx : toRat? x = some (n.toNat : ℚ)) {low high : ℤ}
    (nonpos : low ≤ 0) (wide : 0xFFFFFFFF ≤ high) : truncate low high x = n.toNat := by
  have part : wholePart (n.toNat : ℚ) = n.toNat := wholePart_intCast n.toNat
  have := n.toNat_lt
  rw [truncate_eq hx, part]
  omega

theorem abs_mul_sub_le {v q f e : ℚ} (positive : 0 < f) (near : |v - q / f| ≤ e) :
    |v * f - q| ≤ e * f := by
  calc |v * f - q| = |v - q / f| * f := by
        rw [← abs_of_pos positive, ← abs_mul, abs_of_pos positive, sub_mul,
          div_mul_cancel₀ _ positive.ne']
    _ ≤ e * f := by gcongr

/-! ## Gains -/

theorem toRat?_zero : toRat? (ofNat 0 : ν) = some 0 := by
  exact_mod_cast toRat?_ofNat (ν := ν) (n := 0) (by norm_num)

theorem not_refused {x : ν} {a : ℚ} (hx : toRat? x = some a) (nonneg : 0 ≤ a) :
    (isNaN x || less x (ofNat 0)) = false := by
  rw [isNaN_eq hx, less_eq hx toRat?_zero, decide_eq_false nonneg.not_gt, Bool.false_or]

namespace Gain

variable {factor : ν} {f : ℚ} {mask n : UInt32}

/-- A gain that is read is off by a small part of a count, however large or small the factor is. -/
theorem decode_near (hf : toRat? factor = some f) (positive : 0 < f) (small : n.toNat ≤ 2 ^ 24)
    (fits : Fits ν (n.toNat / f)) :
    ∃ v, toRat? (decode factor n) = some v ∧ |v * f - n.toNat| ≤ 1 / 2 ^ 28 ∧ 0 ≤ v := by
  have small' : (n.toNat : ℚ) ≤ 2 ^ 24 := by exact_mod_cast small
  have nonneg : 0 ≤ (n.toNat : ℚ) / f := by positivity
  obtain ⟨v, hv, approximates⟩ := div_approximates (toRat?_count n) hf positive.ne' fits
  have error := approximates.error
  have sight := step_mul_le hf
  rw [abs_of_nonneg nonneg] at error
  rw [abs_of_pos positive] at sight
  refine ⟨v, hv, ?_, approximates.nonneg nonneg⟩
  calc |v * f - n.toNat| ≤ (n.toNat / f / 2 ^ 53 + step ν) * f := abs_mul_sub_le positive error
    _ = n.toNat / 2 ^ 53 + step ν * f := by field_simp
    _ ≤ 2 ^ 24 / 2 ^ 53 + 1 / 2 ^ 40 := by gcongr
    _ ≤ 1 / 2 ^ 28 := by norm_num

theorem roundAway_of_near {value : ν} {v : ℚ} (hv : toRat? value = some v) (hf : toRat? factor = some f)
    (small : n.toNat ≤ 2 ^ 24) (near : |v * f - n.toNat| ≤ 1 / 2 ^ 28) :
    toRat? (roundAway (value * factor)) = some (n.toNat : ℚ) := by
  have count : (n.toNat : ℚ) ≤ 2 ^ 24 := by exact_mod_cast small
  have nonneg : (0 : ℚ) ≤ n.toNat := Nat.cast_nonneg _
  obtain ⟨low, high⟩ := abs_le.mp near
  obtain ⟨p, hp, rounded, -⟩ := near_mul (2 ^ 25) hv hf (by norm_num) (by norm_num)
    (by rw [abs_le]; constructor <;> linarith)
  refine roundAway_count hp ?_
  calc |p - n.toNat| ≤ |p - v * f| + |v * f - n.toNat| := abs_sub_le _ _ _
    _ ≤ 2 ^ 25 / 2 ^ 52 + 1 / 2 ^ 28 := add_le_add rounded near
    _ < 1 / 2 := by norm_num

/-- A product that is rounded to a count within the mask is encoded without a report. -/
theorem run_encode_of_roundAway {value : ν} {v : ℚ} (hv : toRat? value = some v) (nonneg : 0 ≤ v)
    (raw : toRat? (roundAway (value * factor)) = some (n.toNat : ℚ)) (le : n ≤ mask)
    (quantity : Quantity) : (encode quantity factor mask value).run = pure (.ok n) := by
  have within : ¬ (mask.toNat : ℚ) < n.toNat := by exact_mod_cast UInt32.le_iff_toNat_le.mp le |>.not_gt
  unfold encode
  rw [not_refused hv nonneg, if_neg Bool.false_ne_true]
  dsimp only
  rw [less_eq (toRat?_count mask) raw, decide_eq_false within, if_neg Bool.false_ne_true,
    truncate_count raw le_rfl le_rfl, ofInt_toNat]
  rfl

/-- A gain read back is encoded as the count that it was read from. -/
theorem run_encode_decode (hf : toRat? factor = some f) (positive : 0 < f) (fits : Fits ν (n.toNat / f))
    (le : n ≤ mask) (small : mask ≤ 0xFFFFFF) (quantity : Quantity) :
    (encode quantity factor mask (decode factor n)).run = pure (.ok n) := by
  have le' : n.toNat ≤ mask.toNat := le
  have small' : mask.toNat ≤ 0xFFFFFF := small
  have small'' : n.toNat ≤ 2 ^ 24 := by omega
  obtain ⟨v, hv, near, nonneg⟩ := decode_near hf positive small'' fits
  exact run_encode_of_roundAway hv nonneg (roundAway_of_near hv hf small'' near) le quantity

/-- The factors of the loop hardware are moderate, so no count overflows. -/
theorem run_encode_decode_ofRat {q : ℚ} (low : 2 ≤ q) (high : q ≤ 2 ^ 12) (le : n ≤ 0xFFFFFF)
    (quantity : Quantity) :
    (encode quantity (ofRat q : ν) 0xFFFFFF (decode (ofRat q) n)).run = pure (.ok n) := by
  obtain ⟨f, hf, near, -⟩ := near_ofRat (ν := ν) (q := q) (2 ^ 12) (by norm_num) (by norm_num)
    (by rw [abs_le]; constructor <;> linarith)
  have one_le : 1 ≤ f := by linarith [(abs_le.mp near).1]
  have small : (n.toNat : ℚ) ≤ 0xFFFFFF := by exact_mod_cast UInt32.le_iff_toNat_le.mp le
  have fits : Fits ν (n.toNat / f) := by
    refine fits_of_le ?_ fits_moderate
    rw [abs_of_nonneg (by positivity), abs_of_nonneg (by positivity)]
    calc (n.toNat : ℚ) / f ≤ n.toNat := div_le_self (by positivity) one_le
      _ ≤ 2 ^ 100 := small.trans (by norm_num)
  exact run_encode_decode hf (by linarith) fits le (UInt32.le_refl _) quantity

end Gain

/-! ## Absolute voltages -/

namespace Span

variable {s : Span} {n : UInt32}

theorem toRat?_slack : ∃ e, toRat? (ofRat slack : ν) = some e ∧ 9 / 10 ^ 10 ≤ e ∧ e ≤ 11 / 10 ^ 10 := by
  have low : 99 / 10 ^ 11 ≤ slack := by decide +kernel
  have high : slack ≤ 101 / 10 ^ 11 := by decide +kernel
  obtain ⟨e, he, near, -⟩ := near_ofRat (ν := ν) (q := slack) 1 le_rfl (by norm_num)
    (by rw [abs_le]; constructor <;> linarith)
  obtain ⟨below, above⟩ := abs_le.mp near
  exact ⟨e, he, by linarith, by linarith⟩

theorem wholeCount_floor {place : ν} {t : ℚ} (ht : toRat? (place + ofRat slack) = some t) (nonneg : 0 ≤ t)
    (small : t < 2 ^ 32) : (wholeCount place : ℚ) ≤ t ∧ t < wholeCount place + 1 := by
  have floor_nonneg : 0 ≤ ⌊t⌋ := Int.floor_nonneg.mpr nonneg
  have floor_small : ⌊t⌋ < 2 ^ 32 := by
    rw [Int.floor_lt]
    exact_mod_cast small
  have count : (wholeCount place : ℤ) = ⌊t⌋ := by
    rw [wholeCount, truncate_eq ht, wholePart_of_nonneg nonneg]
    omega
  have count' : (wholeCount place : ℚ) = ⌊t⌋ := by exact_mod_cast count
  rw [count']
  exact ⟨Int.floor_le t, Int.lt_floor_add_one t⟩

/-- The slack lifts a place by about a billionth of a count before its fraction is dropped. -/
theorem wholeCount_bounds {place : ν} {p : ℚ} (hp : toRat? place = some p) (nonneg : 0 ≤ p)
    (le : p ≤ 2 ^ 14) :
    wholeCount place ≤ p + 12 / 10 ^ 10 ∧ p + 8 / 10 ^ 10 < wholeCount place + 1 := by
  obtain ⟨e, he, _, _⟩ := toRat?_slack (ν := ν)
  obtain ⟨t, ht, raised, above⟩ := near_add (2 ^ 15) hp he (by norm_num) (by norm_num)
    (by rw [abs_le]; constructor <;> linarith)
  obtain ⟨_, _⟩ := abs_le.mp raised
  obtain ⟨_, _⟩ := wholeCount_floor ht (above (by linarith)) (by linarith)
  constructor <;> linarith

theorem wholeCount_of_near {place : ν} {p : ℚ} (hp : toRat? place = some p) (nonneg : 0 ≤ p)
    (small : n.toNat ≤ 2 ^ 13) (near : |p - n.toNat| ≤ 1 / 2 ^ 31) : wholeCount place = n.toNat := by
  have small' : (n.toNat : ℚ) ≤ 2 ^ 13 := by exact_mod_cast small
  obtain ⟨_, _⟩ := abs_le.mp near
  obtain ⟨le, lt⟩ := wholeCount_bounds hp nonneg (by linarith)
  have low : (n.toNat : ℚ) < wholeCount place + 1 := by linarith
  have high : (wholeCount place : ℚ) < n.toNat + 1 := by linarith
  have low' : n.toNat < wholeCount place + 1 := by exact_mod_cast low
  have high' : wholeCount place < n.toNat + 1 := by exact_mod_cast high
  omega

namespace FromZero

variable (z : s.FromZero)
include z

theorem toRat?_low : toRat? (ofRat s.low : ν) = some 0 := by
  have zero := toRat?_zero (ν := ν)
  rw [z.low]
  exact zero

theorem toRat?_top : toRat? (ofNat s.top : ν) = some (s.top : ℚ) :=
  toRat?_ofNat (z.top_le.trans (by norm_num))

theorem length_near :
    ∃ h, toRat? (ofRat s.high - ofRat s.low : ν) = some h ∧ |h - s.high| ≤ 1 / 2 ^ 47 := by
  have one_le := z.one_le
  have le_eight := z.le_eight
  obtain ⟨a, ha, near, -⟩ := near_ofRat (ν := ν) (q := s.high) 8 (by norm_num) (by norm_num)
    (by rw [abs_le]; constructor <;> linarith)
  obtain ⟨_, _⟩ := abs_le.mp near
  obtain ⟨h, hh, moved, -⟩ := near_sub 16 ha z.toRat?_low (by norm_num) (by norm_num)
    (by rw [abs_le]; constructor <;> linarith)
  obtain ⟨_, _⟩ := abs_le.mp moved
  refine ⟨h, hh, ?_⟩
  rw [abs_le]
  constructor <;> linarith

/-- Counts past the top of the span too, up to twice the top. -/
theorem voltage_near (small : n.toNat ≤ 2 * s.top) :
    ∃ v, toRat? (s.voltage n : ν) = some v ∧ |v - n.toNat / s.top * s.high| ≤ 1 / 2 ^ 44 ∧ 0 ≤ v := by
  have positive : (0 : ℚ) < s.top := by exact_mod_cast z.top_pos
  have part_nonneg : 0 ≤ (n.toNat : ℚ) / s.top := by positivity
  have part_le : (n.toNat : ℚ) / s.top ≤ 2 := by
    rw [div_le_iff₀ positive]
    exact_mod_cast small
  have one_le := z.one_le
  have le_eight := z.le_eight
  obtain ⟨h, hh, length⟩ := z.length_near (ν := ν)
  obtain ⟨_, _⟩ := abs_le.mp length
  obtain ⟨a, ha, divided, above⟩ := near_div (ν := ν) 2 (toRat?_count n) z.toRat?_top positive.ne'
    (by norm_num) (by norm_num) (by rw [abs_le]; constructor <;> linarith)
  have a_nonneg := above part_nonneg
  have volts_le : (n.toNat : ℚ) / s.top * s.high ≤ 16 := by
    calc (n.toNat : ℚ) / s.top * s.high ≤ 2 * 8 := by gcongr
      _ = 16 := by norm_num
  have volts_nonneg : 0 ≤ (n.toNat : ℚ) / s.top * s.high := by positivity
  have scaled : |a * h - n.toNat / s.top * s.high| ≤ 1 / 2 ^ 45 := by
    calc |a * h - n.toNat / s.top * s.high|
        ≤ |a * h - n.toNat / s.top * h| + |n.toNat / s.top * h - n.toNat / s.top * s.high| :=
          abs_sub_le _ _ _
      _ = |a - n.toNat / s.top| * |h| + n.toNat / s.top * |h - s.high| := by
          rw [← sub_mul, ← mul_sub, abs_mul, abs_mul, abs_of_nonneg part_nonneg]
      _ ≤ 2 / 2 ^ 52 * 9 + 2 * (1 / 2 ^ 47) := by
          have wide : |h| ≤ 9 := by rw [abs_le]; constructor <;> linarith
          gcongr
      _ ≤ 1 / 2 ^ 45 := by norm_num
  obtain ⟨_, _⟩ := abs_le.mp scaled
  have product_nonneg : 0 ≤ a * h := mul_nonneg a_nonneg (by linarith)
  obtain ⟨b, hb, rounded, above⟩ := near_mul 32 ha hh (by norm_num) (by norm_num)
    (by rw [abs_le]; constructor <;> linarith)
  have b_nonneg := above product_nonneg
  obtain ⟨_, _⟩ := abs_le.mp rounded
  obtain ⟨v, hv, moved, above⟩ := near_add 32 hb z.toRat?_low (by norm_num) (by norm_num)
    (by rw [abs_le]; constructor <;> linarith)
  obtain ⟨_, _⟩ := abs_le.mp moved
  refine ⟨v, hv, ?_, above (by linarith)⟩
  rw [abs_le]
  constructor <;> linarith

theorem position_near {volts : ν} {v : ℚ} (hv : toRat? volts = some v) (nonneg : 0 ≤ v)
    (le : v ≤ 3 * s.high) :
    ∃ p, toRat? (s.position volts) = some p ∧ |p - v / s.high * s.top| ≤ 1 / 2 ^ 32 ∧ 0 ≤ p := by
  have positive : (0 : ℚ) < s.top := by exact_mod_cast z.top_pos
  have top_le : (s.top : ℚ) ≤ 4095 := by exact_mod_cast z.top_le
  have one_le := z.one_le
  have le_eight := z.le_eight
  obtain ⟨q, rfl⟩ : ∃ q, v = q * s.high := ⟨v / s.high, (div_mul_cancel₀ _ z.high_pos.ne').symm⟩
  have q_nonneg : 0 ≤ q := nonneg_of_mul_nonneg_left nonneg z.high_pos
  have q_le : q ≤ 3 := le_of_mul_le_mul_right le z.high_pos
  rw [mul_div_cancel_right₀ _ z.high_pos.ne']
  obtain ⟨h, hh, length⟩ := z.length_near (ν := ν)
  obtain ⟨_, _⟩ := abs_le.mp length
  have wide : 0 < h := by linarith
  obtain ⟨a, ha, moved, above⟩ := near_sub 32 hv z.toRat?_low (by norm_num) (by norm_num)
    (by rw [abs_le]; constructor <;> linarith)
  have a_nonneg := above (by linarith)
  rw [sub_zero] at moved
  have part : |a / h - q| ≤ 5 / 2 ^ 47 := by
    have close : |a - q * h| ≤ 4 / 2 ^ 47 := by
      calc |a - q * h| ≤ |a - q * s.high| + |q * s.high - q * h| := abs_sub_le _ _ _
        _ = |a - q * s.high| + q * |h - s.high| := by
            rw [← mul_sub, abs_mul, abs_of_nonneg q_nonneg, abs_sub_comm s.high]
        _ ≤ 32 / 2 ^ 52 + 3 * (1 / 2 ^ 47) := by gcongr
        _ = 4 / 2 ^ 47 := by norm_num
    calc |a / h - q| = |a - q * h| / h := by
          rw [← abs_of_pos wide, ← abs_div, abs_of_pos wide, sub_div, mul_div_cancel_right₀ _ wide.ne']
      _ ≤ 5 / 2 ^ 47 := by
          rw [div_le_iff₀ wide]
          linarith
  obtain ⟨_, _⟩ := abs_le.mp part
  obtain ⟨b, hb, divided, above⟩ := near_div 4 ha hh wide.ne' (by norm_num) (by norm_num)
    (by rw [abs_le]; constructor <;> linarith)
  have b_nonneg := above (by positivity)
  have whole : |b * s.top - q * s.top| ≤ 6 / 2 ^ 35 := by
    calc |b * s.top - q * s.top| = |b - q| * s.top := by
          rw [← sub_mul, abs_mul, abs_of_pos positive]
      _ ≤ (|b - a / h| + |a / h - q|) * s.top := by
          gcongr
          exact abs_sub_le _ _ _
      _ ≤ (4 / 2 ^ 52 + 5 / 2 ^ 47) * 4095 := by gcongr
      _ ≤ 6 / 2 ^ 35 := by norm_num
  obtain ⟨_, _⟩ := abs_le.mp whole
  have count_le : q * s.top ≤ 3 * 4095 := by gcongr
  have count_nonneg : 0 ≤ q * s.top := by positivity
  obtain ⟨p, hp, scaled, above⟩ := near_mul (2 ^ 14) hb z.toRat?_top (by norm_num) (by norm_num)
    (by rw [abs_le]; constructor <;> linarith)
  obtain ⟨_, _⟩ := abs_le.mp scaled
  refine ⟨p, hp, ?_, above (by positivity)⟩
  rw [abs_le]
  constructor <;> linarith

/-- A voltage that is read lies at its count, within less than the slack. -/
theorem position_voltage (small : n.toNat ≤ 2 * s.top) :
    ∃ p, toRat? (s.position (s.voltage n : ν)) = some p ∧ |p - n.toNat| ≤ 1 / 2 ^ 31 ∧ 0 ≤ p := by
  have positive : (0 : ℚ) < s.top := by exact_mod_cast z.top_pos
  have top_le : (s.top : ℚ) ≤ 4095 := by exact_mod_cast z.top_le
  have high_pos := z.high_pos
  have one_le := z.one_le
  obtain ⟨v, hv, near, nonneg⟩ := z.voltage_near (ν := ν) small
  have volts_le : (n.toNat : ℚ) / s.top * s.high ≤ 2 * s.high := by
    gcongr
    rw [div_le_iff₀ positive]
    exact_mod_cast small
  obtain ⟨p, hp, close, above⟩ := z.position_near hv nonneg (by linarith [(abs_le.mp near).2])
  refine ⟨p, hp, ?_, above⟩
  have place : |v / s.high * s.top - n.toNat| ≤ 1 / 2 ^ 32 := by
    calc |v / s.high * s.top - n.toNat|
        = |v - n.toNat / s.top * s.high| * (s.top / s.high) := by
          rw [← abs_of_pos (div_pos positive high_pos), ← abs_mul]
          congr 1
          field_simp
      _ ≤ 1 / 2 ^ 44 * (4095 / 1) := by gcongr
      _ ≤ 1 / 2 ^ 32 := by norm_num
  calc |p - n.toNat| ≤ |p - v / s.high * s.top| + |v / s.high * s.top - n.toNat| := abs_sub_le _ _ _
    _ ≤ 1 / 2 ^ 32 + 1 / 2 ^ 32 := add_le_add close place
    _ = 1 / 2 ^ 31 := by norm_num

end FromZero

theorem inputCode_voltage (small : n.toNat ≤ 4095) : inputCode (slowInput.voltage n : ν) = n := by
  obtain ⟨p, hp, near, nonneg⟩ :=
    slowInput_fromZero.position_voltage (ν := ν) (small.trans (by decide : 4095 ≤ 2 * slowInput.top))
  rw [inputCode, wholeCount_of_near hp nonneg (by omega) near, slowInput, Nat.min_eq_left small,
    UInt32.ofNat_toNat]

theorem encodeInput_voltage (small : n.toNat ≤ 4095) :
    (encodeInput (slowInput.voltage n : ν)).run.value = .ok n := by
  obtain ⟨v, hv, -⟩ :=
    slowInput_fromZero.voltage_near (ν := ν) (small.trans (by decide : 4095 ≤ 2 * slowInput.top))
  rw [encodeInput_value, isNaN_eq hv, inputCode_voltage small]
  rfl

/-- Counts past the top of the slow outputs come back as the top. -/
theorem toNat_outputCode_voltage (small : n.toNat ≤ 255) :
    (outputCode (slowOutput.voltage n : ν)).toNat = min n.toNat 156 := by
  obtain ⟨p, hp, near, nonneg⟩ :=
    slowOutput_fromZero.position_voltage (ν := ν) (small.trans (by decide : 255 ≤ 2 * slowOutput.top))
  obtain ⟨_, _⟩ := abs_le.mp near
  unfold outputCode
  rw [less_eq slowOutput_fromZero.toRat?_top hp, wholeCount_of_near hp nonneg (by omega) near]
  split
  · rename_i above
    have above' : (156 : ℚ) < p := of_decide_eq_true above
    have last : (155 : ℚ) < n.toNat := by linarith
    have last' : 155 < n.toNat := by exact_mod_cast last
    change 156 = min n.toNat 156
    omega
  · rename_i notAbove
    have below : p ≤ (156 : ℚ) := not_lt.mp (of_decide_eq_false (Bool.eq_false_iff.mpr notAbove))
    have last : (n.toNat : ℚ) < 157 := by linarith
    have last' : n.toNat < 157 := by exact_mod_cast last
    rw [UInt32.ofNat_toNat]
    omega

theorem outputCode_voltage (small : n.toNat ≤ 156) : outputCode (slowOutput.voltage n : ν) = n := by
  apply UInt32.toNat_inj.mp
  rw [toNat_outputCode_voltage (by omega), Nat.min_eq_left small]

end Span

/-! ## Calibrated voltages -/

theorem toRat?_clampNonNegative {x : ν} {v : ℚ} (hx : toRat? x = some v) :
    toRat? (clampNonNegative x) = some (max 0 v) := by
  have zero : toRat? (ofNat 0 : ν) = some 0 := by exact_mod_cast toRat?_ofNat (ν := ν) (n := 0) (by norm_num)
  unfold clampNonNegative
  rw [less_eq zero hx]
  split
  · rename_i above
    rw [hx, max_eq_right (of_decide_eq_true above).le]
  · rename_i notAbove
    rw [zero, max_eq_left (not_lt.mp (of_decide_eq_false (Bool.not_eq_true _ ▸ notAbove)))]

namespace Scale

variable {c : Correction ν} {g o : ℚ} {n : UInt32}

/-- A whole number is held between the ends of the range. -/
theorem hold_of_whole (s : Scale ν) {raw : ν} {m : ℤ} (hr : toRat? raw = some (m : ℚ)) :
    s.hold raw = max s.lowest (min m s.highest) := by
  have low := s.lowest_nonpos
  have high := s.highest_nonneg
  have low_ge := s.lowest_ge
  have high_lt := s.highest_lt
  have highest : toRat? (ofInt s.highest : ν) = some (s.highest : ℚ) :=
    toRat?_ofInt (by rw [abs_le]; omega)
  have lowest : toRat? (ofInt s.lowest : ν) = some (s.lowest : ℚ) := toRat?_ofInt (by rw [abs_le]; omega)
  unfold hold
  rw [less_eq highest hr, less_eq hr lowest, truncate_eq hr, wholePart_intCast]
  simp only [Int.cast_lt, decide_eq_true_eq]
  split
  · omega
  · split <;> omega

theorem hold_whole {raw : ν} {m : ℤ} (hr : toRat? raw = some (m : ℚ)) :
    unipolar.hold raw = max 0 (min m 16383) :=
  hold_of_whole unipolar hr

structure Uses (c : Correction ν) (g o : ℚ) : Prop where
  gain : toRat? c.sanitized.gain = some g
  offset : toRat? c.sanitized.offset = some o

/-- A gain and an offset for which the roundings of a round trip stay below half a count. -/
structure Moderate (g o : ℚ) : Prop where
  gain_low : 1 / 2 ^ 10 ≤ g
  gain_high : g ≤ 2 ^ 10
  offset_low : 0 ≤ o
  offset_high : o ≤ 1

theorem toRat?_span : toRat? (ofNat (unipolar (ν := ν)).span : ν) = some 16384 := by
  exact_mod_cast toRat?_ofNat (ν := ν) (n := 16384) (by norm_num)

theorem toRat?_fullScale : toRat? (unipolar (ν := ν)).fullScale = some 1 := by
  exact_mod_cast toRat?_ofNat (ν := ν) (n := 1) (by norm_num)

theorem part_div_gain_le {g o q : ℚ} (h : Moderate g o) (nonneg : 0 ≤ q) (le : q ≤ 1) :
    0 ≤ q / g ∧ q / g ≤ 2 ^ 10 := by
  have positive : 0 < g := lt_of_lt_of_le (by norm_num) h.gain_low
  have low := h.gain_low
  refine ⟨by positivity, ?_⟩
  rw [div_le_iff₀ positive]
  linarith

theorem volts_near (uses : Uses c g o) (h : Moderate g o) (masked : n &&& 0x3FFF = n) :
    ∃ v, toRat? (unipolar.volts c (ofNat 0) n) = some v ∧
      |v - (n.toNat / 16384 / g + o)| ≤ 1 / 2 ^ 38 := by
  have small : (n.toNat : ℚ) ≤ 16383 := by exact_mod_cast toNat_le_of_masked masked
  have nonneg : (0 : ℚ) ≤ n.toNat := Nat.cast_nonneg _
  have positive : 0 < g := lt_of_lt_of_le (by norm_num) h.gain_low
  have count : toRat? (ofInt ((unipolar : Scale ν).count n) : ν) = some (n.toNat : ℚ) := by
    rw [unipolar_count masked]
    exact toRat?_count n
  obtain ⟨t_nonneg, t_le⟩ := part_div_gain_le h (q := n.toNat / 16384) (by positivity) (by linarith)
  obtain ⟨_, _, _, _⟩ := h
  obtain ⟨a, ha, parted, -⟩ := near_div 1 count toRat?_span (by norm_num) le_rfl (by norm_num)
    (by rw [abs_le]; constructor <;> linarith)
  have divided : |a / g - n.toNat / 16384 / g| ≤ 1 / 2 ^ 42 := by
    rw [← sub_div, abs_div, abs_of_pos positive, div_le_iff₀ positive]
    linarith
  obtain ⟨_, _⟩ := abs_le.mp divided
  obtain ⟨b, hb, rounded, -⟩ := near_div (2 ^ 11) ha uses.gain positive.ne' (by norm_num) (by norm_num)
    (by rw [abs_le]; constructor <;> linarith)
  obtain ⟨_, _⟩ := abs_le.mp rounded
  obtain ⟨d, hd, scaled, -⟩ := near_mul (2 ^ 11) hb toRat?_fullScale (by norm_num) (by norm_num)
    (by rw [abs_le]; constructor <;> linarith)
  obtain ⟨_, _⟩ := abs_le.mp scaled
  obtain ⟨e, he, moved, -⟩ := near_add (2 ^ 11) hd uses.offset (by norm_num) (by norm_num)
    (by rw [abs_le]; constructor <;> linarith)
  obtain ⟨_, _⟩ := abs_le.mp moved
  obtain ⟨v, hv, shifted, -⟩ := near_add (2 ^ 11) he toRat?_zero (by norm_num) (by norm_num)
    (by rw [abs_le]; constructor <;> linarith)
  obtain ⟨_, _⟩ := abs_le.mp shifted
  refine ⟨v, hv, ?_⟩
  rw [abs_le]
  constructor <;> linarith

theorem place_near {volts : ν} {v : ℚ} (hv : toRat? volts = some v) (uses : Uses c g o)
    (h : Moderate g o) (small : n.toNat ≤ 16383)
    (near : |v - (n.toNat / 16384 / g + o)| ≤ 1 / 2 ^ 38) :
    ∃ p, toRat? (unipolar.place c (ofNat 0) volts) = some p ∧ |p - n.toNat| < 1 / 2 := by
  have small' : (n.toNat : ℚ) ≤ 16383 := by exact_mod_cast small
  have nonneg : (0 : ℚ) ≤ n.toNat := Nat.cast_nonneg _
  have positive : 0 < g := lt_of_lt_of_le (by norm_num) h.gain_low
  obtain ⟨t_nonneg, t_le⟩ := part_div_gain_le h (q := n.toNat / 16384) (by positivity) (by linarith)
  obtain ⟨_, high, _, _⟩ := h
  obtain ⟨_, _⟩ := abs_le.mp near
  obtain ⟨a, ha, moved, -⟩ := near_sub (2 ^ 11) hv uses.offset (by norm_num) (by norm_num)
    (by rw [abs_le]; constructor <;> linarith)
  obtain ⟨_, _⟩ := abs_le.mp moved
  obtain ⟨b, hb, shifted, -⟩ := near_sub (2 ^ 11) ha toRat?_zero (by norm_num) (by norm_num)
    (by rw [abs_le]; constructor <;> linarith)
  obtain ⟨_, _⟩ := abs_le.mp shifted
  obtain ⟨d, hd, scaled, -⟩ := near_div (2 ^ 11) hb toRat?_fullScale (by norm_num) (by norm_num)
    (by norm_num) (by rw [abs_le]; constructor <;> linarith)
  obtain ⟨_, _⟩ := abs_le.mp scaled
  have before : |d - n.toNat / 16384 / g| ≤ 1 / 2 ^ 37 := by
    rw [abs_le]
    constructor <;> linarith
  have multiplied : |d * g - n.toNat / 16384| ≤ 1 / 2 ^ 27 := by
    calc |d * g - n.toNat / 16384| ≤ 1 / 2 ^ 37 * g := abs_mul_sub_le positive before
      _ ≤ 1 / 2 ^ 37 * 2 ^ 10 := by gcongr
      _ = 1 / 2 ^ 27 := by norm_num
  obtain ⟨_, _⟩ := abs_le.mp multiplied
  obtain ⟨e, he, rounded, -⟩ := near_mul 2 hd uses.gain (by norm_num) (by norm_num)
    (by rw [abs_le]; constructor <;> linarith)
  obtain ⟨_, _⟩ := abs_le.mp rounded
  obtain ⟨p, hp, counted, -⟩ := near_mul (2 ^ 15) he toRat?_span (by norm_num) (by norm_num)
    (by rw [abs_le]; constructor <;> linarith)
  obtain ⟨_, _⟩ := abs_le.mp counted
  refine ⟨p, hp, ?_⟩
  rw [abs_lt]
  constructor <;> linarith

theorem code_of_place {volts : ν} {p : ℚ} (hp : toRat? (unipolar.place c (ofNat 0) volts) = some p)
    (near : |p - n.toNat| < 1 / 2) (masked : n &&& 0x3FFF = n) : unipolar.code c (ofNat 0) volts = n := by
  have raw := roundAway_count hp near
  have small : n.toNat ≤ 16383 := toNat_le_of_masked masked
  have held : unipolar.hold (roundAway (unipolar.place c (ofNat 0) volts)) = n.toNat := by
    rw [hold_whole (m := n.toNat) (by exact_mod_cast raw)]
    omega
  rw [code, unipolar_mask, held, ofInt_toNat, masked]

/-- A calibrated voltage read back under a moderate correction is encoded as its count. -/
theorem code_clamp_volts (uses : Uses c g o) (h : Moderate g o) (masked : n &&& 0x3FFF = n) :
    unipolar.code c (ofNat 0) (clampNonNegative (unipolar.volts c (ofNat 0) n)) = n := by
  obtain ⟨v, hv, near⟩ := volts_near uses h masked
  have clamped : |max 0 v - (n.toNat / 16384 / g + o)| ≤ 1 / 2 ^ 38 := by
    have positive : 0 < g := lt_of_lt_of_le (by norm_num) h.gain_low
    have above : 0 ≤ (n.toNat : ℚ) / 16384 / g + o := add_nonneg (by positivity) h.offset_low
    obtain ⟨_, _⟩ := abs_le.mp near
    rw [abs_le]
    rcases max_choice 0 v with low | high
    · have := le_max_right 0 v
      constructor <;> linarith
    · rw [high]
      constructor <;> linarith
  obtain ⟨p, hp, close⟩ :=
    place_near (toRat?_clampNonNegative hv) uses h (toNat_le_of_masked masked) clamped
  exact code_of_place hp close masked

end Scale

end LockServo

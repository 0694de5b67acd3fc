import LockServo.Proofs.Binary64.Order
import LockServo.Proofs.Conversion.Counts

/-!
# Conversions keep the order

Under monotone rounding no chain of operations, however it overflows, and none of the clamps takes a larger
voltage to a smaller count, or a larger count to a smaller voltage.
-/

namespace LockServo

open Arithmetic MonotoneRounding

variable {ν : Type} [Arithmetic ν] [MonotoneRounding ν]

theorem eq_of_verdict {ε α : Type} {refused : Prop} [Decidable refused] {e : ε} {a b : α}
    (h : (if refused then Except.error e else .ok a) = .ok b) : a = b := by
  split at h
  · cases h
  · exact Except.ok.inj h

/-! ## Constants -/

theorem positive_ofNat {n : ℕ} (pos : 0 < n) (small : n ≤ 2 ^ 52) : Positive (ofNat n : ν) := by
  have double : onGrid (n : ℤ) = (n : ℤ) :=
    Binary64.onGrid_intCast (by rw [Nat.abs_cast]; exact_mod_cast small)
  exact positive_ofRat (by exact_mod_cast double) (by exact_mod_cast pos)

theorem isNaN_ofInt (n : ℤ) : isNaN (ofInt n : ν) = false :=
  isNaN_iff.mpr ⟨_, ofRat_eq n⟩

theorem truncate_ofRat {q : ℚ} (double : onGrid q = q) (low high : ℤ) :
    truncate low high (ofRat q : ν) = max low (min high (wholePart q)) :=
  truncate_eq (ofRat_of_double double) low high

theorem truncate_ofInt {n : ℤ} (small : |n| ≤ 2 ^ 52) (low high : ℤ) :
    truncate low high (ofInt n : ν) = max low (min high n) := by
  rw [ofInt, truncate_ofRat (Binary64.onGrid_intCast small), wholePart_intCast]

theorem truncate_ofNat {n : ℕ} (small : n ≤ 2 ^ 52) {high : ℤ} (le : n ≤ high) :
    truncate 0 high (ofNat n : ν) = n := by
  have whole : truncate 0 high (ofInt n : ν) = max 0 (min high n) :=
    truncate_ofInt (by rw [Nat.abs_cast]; exact_mod_cast small) 0 high
  exact whole.trans (by omega)

/-! ## Calibrated voltages -/

namespace Correction

theorem positive_usableGain (k : Correction ν) : Positive k.sanitized.gain := by
  change Positive k.usableGain.value
  unfold usableGain
  split
  · rename_i usable
    exact Bool.and_eq_true_iff.mp usable
  · exact positive_ofNat one_pos (by norm_num)

theorem finite_usableOffset (k : Correction ν) : isFinite k.sanitized.offset = true := by
  change isFinite k.usableOffset.value = true
  unfold usableOffset
  split
  · assumption
  · exact finite_ofRat (by decide +kernel)

end Correction

namespace Scale

variable {s : Scale ν} {k : Correction ν} {u v w : ν}

theorem positive_span (s : Scale ν) : Positive (ofNat s.span : ν) :=
  positive_ofNat s.span_pos (s.span_le.trans (by norm_num))

/-- Comparing with the ends first gives the whole part held between them. -/
theorem hold_eq {raw : ν} (number : isNaN raw = false) :
    s.hold raw = max s.lowest (min s.highest
      (truncate (-0x8000000000000000) 0x7FFFFFFFFFFFFFFF raw)) := by
  have low := s.lowest_nonpos
  have high := s.highest_nonneg
  have low_ge := s.lowest_ge
  have high_lt := s.highest_lt
  have ends : (-0x8000000000000000 : ℤ) ≤ 0x7FFFFFFFFFFFFFFF := by decide
  have atLowest : truncate _ _ (ofInt s.lowest : ν) = _ :=
    truncate_ofInt (by rw [abs_le]; omega) (-0x8000000000000000) 0x7FFFFFFFFFFFFFFF
  have atHighest : truncate _ _ (ofInt s.highest : ν) = _ :=
    truncate_ofInt (by rw [abs_le]; omega) (-0x8000000000000000) 0x7FFFFFFFFFFFFFFF
  unfold hold
  split
  · rename_i above
    have le := (AtMost.of_less above (isNaN_ofInt _) number).truncate_le ends
    omega
  · rename_i notAbove
    have le := (AtMost.of_not_less number (isNaN_ofInt _) notAbove).truncate_le ends
    split
    · rename_i below
      have le' := (AtMost.of_less below number (isNaN_ofInt _)).truncate_le ends
      omega
    · rename_i notBelow
      have le' := (AtMost.of_not_less (isNaN_ofInt _) number notBelow).truncate_le ends
      omega

theorem hold_le {raw raw' : ν} (le : AtMost raw raw') : s.hold raw ≤ s.hold raw' := by
  have whole : truncate (-0x8000000000000000) 0x7FFFFFFFFFFFFFFF raw ≤
      truncate (-0x8000000000000000) 0x7FFFFFFFFFFFFFFF raw' := le.truncate_le (by decide)
  rw [hold_eq le.1, hold_eq le.2.1]
  omega

theorem place_le (positive : Positive s.fullScale) (finite : isFinite u = true) (le : AtMost v w) :
    AtMost (s.place k u v) (s.place k u w) :=
  ((((le.sub_right k.finite_usableOffset).sub_right finite).div_right positive).mul_right
    k.positive_usableGain).mul_right s.positive_span

theorem count_code_of_isNaN (number : isNaN (s.place k u v) = false) :
    s.count (s.code k u v) = s.hold (roundAway (s.place k u v)) := by
  have range := s.lowest_nonpos.trans s.highest_nonneg
  have number' : isNaN (roundAway (s.place k u v)) = false := (AtMost.of_isNaN number).roundAway.1
  have held := hold_eq (s := s) number'
  exact s.count_ofInt_and_mask (by omega) (by omega)

theorem count_code_mono (positive : Positive s.fullScale) (finite : isFinite u = true) (le : AtMost v w) :
    s.count (s.code k u v) ≤ s.count (s.code k u w) := by
  have placed := place_le (k := k) positive finite le
  rw [count_code_of_isNaN placed.1, count_code_of_isNaN placed.2.1]
  exact hold_le placed.roundAway

/-- The larger of two accepted voltages is not encoded as the smaller count. -/
theorem encode_le (positive : Positive s.fullScale) (finite : isFinite u = true) (le : AtMost v w)
    {m n : UInt32} (first : (s.encode k u v).run.value = .ok m)
    (second : (s.encode k u w).run.value = .ok n) : s.count m ≤ s.count n := by
  rw [encode_value] at first second
  rw [← eq_of_verdict first, ← eq_of_verdict second]
  exact count_code_mono positive finite le

theorem volts_le (positive : Positive s.fullScale) (finite : isFinite u = true) {m n : UInt32}
    (le : s.count m ≤ s.count n) : AtMost (s.volts k u m) (s.volts k u n) := by
  have counts : AtMost (ofInt (s.count m) : ν) (ofInt (s.count n)) :=
    atMost_ofRat (by exact_mod_cast le)
  exact ((((counts.div_right s.positive_span).div_right k.positive_usableGain).mul_right positive).add_right
    k.finite_usableOffset).add_right finite

/-- The larger of two counts is not decoded to the smaller voltage. -/
theorem decode_le (positive : Positive s.fullScale) (finite : isFinite u = true) {m n : UInt32}
    (le : s.count m ≤ s.count n) : AtMost (s.decode k u m).value (s.decode k u n).value := by
  have volts := volts_le (k := k) positive finite le
  rw [decode_value, decode_value]
  split
  · exact volts
  · exact volts.clampNonNegative

end Scale

/-! ## Gains -/

namespace Gain

variable {factor v w : ν} {mask : UInt32}

/-- Comparing with the mask first gives the whole part held below it. -/
theorem toNat_code_eq (mask : UInt32) (number : isNaN (roundAway (v * factor)) = false) :
    ((code factor mask v).toNat : ℤ) = min (truncate 0 0xFFFFFFFF (roundAway (v * factor))) mask.toNat := by
  have wide := mask.toNat_lt
  have ends : (0 : ℤ) ≤ 0xFFFFFFFF := by decide
  have number' : isNaN (ofNat mask.toNat : ν) = false := isNaN_ofInt mask.toNat
  have atMask : truncate 0 0xFFFFFFFF (ofNat mask.toNat : ν) = mask.toNat := truncate_ofNat (by omega) (by omega)
  obtain ⟨low, high⟩ := truncate_bounds number ends
  unfold code
  dsimp only
  split
  · rename_i above
    have le := (AtMost.of_less above number' number).truncate_le ends
    omega
  · rename_i notAbove
    have le := (AtMost.of_not_less number number' notAbove).truncate_le ends
    rw [toNat_ofInt low (by omega)]
    omega

theorem code_mono (positive : Positive factor) (le : AtMost v w) : code factor mask v ≤ code factor mask w := by
  have rounded := (le.mul_right positive).roundAway
  have held : truncate 0 0xFFFFFFFF (roundAway (v * factor)) ≤
      truncate 0 0xFFFFFFFF (roundAway (w * factor)) := rounded.truncate_le (by decide)
  have low := toNat_code_eq mask rounded.1
  have high := toNat_code_eq mask rounded.2.1
  rw [UInt32.le_iff_toNat_le]
  omega

theorem encode_le (positive : Positive factor) (le : AtMost v w) {quantity : Quantity} {m n : UInt32}
    (first : (encode quantity factor mask v).run.value = .ok m)
    (second : (encode quantity factor mask w).run.value = .ok n) : m ≤ n := by
  rw [encode_value] at first second
  rw [← eq_of_verdict first, ← eq_of_verdict second]
  exact code_mono positive le

theorem decode_le (positive : Positive factor) {m n : UInt32} (le : m ≤ n) :
    AtMost (decode factor m) (decode factor n) := by
  have counts : AtMost (ofNat m.toNat : ν) (ofNat n.toNat) := atMost_ofRat (by exact_mod_cast le)
  exact counts.div_right positive

end Gain

/-! ## Absolute voltages -/

namespace Span

variable {s : Span} {v w : ν}

namespace FromZero

variable (z : s.FromZero)
include z

theorem finite_low : isFinite (ofRat s.low : ν) = true := by
  rw [z.low]
  exact finite_ofRat (by decide +kernel)

theorem positive_length : Positive (ofRat s.high - ofRat s.low : ν) := by
  have high : place? (ofRat s.high : ν) = some (.finite s.high) := ofRat_of_double z.high
  have low : place? (ofRat s.low : ν) = some (.finite 0) := by
    rw [z.low]
    exact ofRat_of_double (by decide +kernel)
  have length := sub_eq high low
  refine positive_iff.mpr ⟨s.high, length.trans ?_, z.high_pos⟩
  change some (MonotoneRounding.round ν (s.high - 0)) = _
  rw [sub_zero, round_double z.high]

theorem positive_top : Positive (ofNat s.top : ν) :=
  positive_ofNat z.top_pos (z.top_le.trans (by norm_num))

theorem position_le (le : AtMost v w) : AtMost (s.position v) (s.position w) :=
  ((le.sub_right z.finite_low).div_right z.positive_length).mul_right z.positive_top

/-- The larger of two counts is not the smaller voltage. -/
theorem voltage_le {m n : UInt32} (le : m ≤ n) : AtMost (s.voltage m : ν) (s.voltage n) := by
  have counts : AtMost (ofNat m.toNat : ν) (ofNat n.toNat) := atMost_ofRat (by exact_mod_cast le)
  exact ((counts.div_right z.positive_top).mul_right z.positive_length).add_right z.finite_low

end FromZero

theorem finite_slack : isFinite (ofRat slack : ν) = true := finite_ofRat (by decide +kernel)

theorem wholeCount_mono (le : AtMost v w) : wholeCount v ≤ wholeCount w := by
  have held : truncate 0 0xFFFFFFFF (v + ofRat slack) ≤ truncate 0 0xFFFFFFFF (w + ofRat slack) :=
    (le.add_right finite_slack).truncate_le (by decide)
  unfold wholeCount
  omega

theorem inputCode_mono (le : AtMost v w) : inputCode v ≤ inputCode w := by
  rw [UInt32.le_iff_toNat_le, toNat_inputCode, toNat_inputCode]
  exact min_le_min (wholeCount_mono (slowInput_fromZero.position_le le)) le_rfl

theorem encodeInput_le (le : AtMost v w) {m n : UInt32} (first : (encodeInput v).run.value = .ok m)
    (second : (encodeInput w).run.value = .ok n) : m ≤ n := by
  rw [encodeInput_value] at first second
  rw [← eq_of_verdict first, ← eq_of_verdict second]
  exact inputCode_mono le

/-- The slack does not lift the top of the slow outputs to another count. -/
theorem wholeCount_top : wholeCount (ofNat slowOutput.top : ν) = slowOutput.top := by
  obtain ⟨positive, small⟩ := slack_bounds
  have top : place? (ofNat slowOutput.top : ν) = some (.finite 156) := ofRat_of_double (by decide +kernel)
  have lifted : place? (ofNat slowOutput.top + ofRat slack : ν) = some (MonotoneRounding.round ν (156 + slack)) :=
    add_eq top (ofRat_of_double (by decide +kernel))
  have low : AtMost (ofNat slowOutput.top : ν) (ofNat slowOutput.top + ofRat slack) := by
    have exact : MonotoneRounding.round ν 156 = .finite 156 := round_double (by decide +kernel)
    have le : MonotoneRounding.round ν 156 ≤ MonotoneRounding.round ν (156 + slack) :=
      MonotoneRounding.round_mono (by linarith)
    rw [exact] at le
    exact atMost_iff.mpr ⟨_, _, top, lifted, le⟩
  have high : AtMost (ofNat slowOutput.top + ofRat slack : ν) (ofRat (313 / 2)) := by
    have le : MonotoneRounding.round ν (156 + slack) ≤ MonotoneRounding.round ν (313 / 2) :=
      MonotoneRounding.round_mono (by linarith)
    exact atMost_iff.mpr ⟨_, _, lifted, ofRat_eq _, le⟩
  have above := low.truncate_le (show (0 : ℤ) ≤ 0xFFFFFFFF by decide)
  have below := high.truncate_le (show (0 : ℤ) ≤ 0xFFFFFFFF by decide)
  have whole : wholePart (313 / 2) = 156 := by decide +kernel
  rw [truncate_ofNat (by decide) (by decide)] at above
  rw [truncate_ofRat (by decide +kernel), whole] at below
  change (truncate 0 0xFFFFFFFF _).toNat = 156
  change (156 : ℤ) ≤ _ at above
  omega

/-- Comparing with the top first gives the whole count held there. -/
theorem toNat_outputCode (number : isNaN (slowOutput.position v) = false) :
    (outputCode v).toNat = min (wholeCount (slowOutput.position v)) slowOutput.top := by
  have number' : isNaN (ofNat slowOutput.top : ν) = false := isNaN_ofInt slowOutput.top
  have atTop := wholeCount_top (ν := ν)
  unfold outputCode
  split
  · rename_i above
    have le := wholeCount_mono (AtMost.of_less above number' number)
    rw [atTop] at le
    exact (min_eq_right le).symm
  · rename_i notAbove
    have le := wholeCount_mono (AtMost.of_not_less number number' notAbove)
    rw [atTop] at le
    rw [min_eq_left le]
    exact Nat.mod_eq_of_lt (le.trans_lt (by decide))

theorem outputCode_le (number : isNaN v = false) : (outputCode v).toNat ≤ 156 := by
  rw [toNat_outputCode (slowOutput_fromZero.position_le (AtMost.of_isNaN number)).1]
  exact Nat.min_le_right _ _

theorem outputCode_mono (le : AtMost v w) : outputCode v ≤ outputCode w := by
  have placed := slowOutput_fromZero.position_le le
  rw [UInt32.le_iff_toNat_le, toNat_outputCode placed.1, toNat_outputCode placed.2.1]
  exact min_le_min (wholeCount_mono placed) le_rfl

theorem encodeOutput_le (le : AtMost v w) {m n : UInt32} (first : (encodeOutput v).run.value = .ok m)
    (second : (encodeOutput w).run.value = .ok n) : m ≤ n := by
  rw [encodeOutput_value] at first second
  rw [← eq_of_verdict first, ← eq_of_verdict second]
  exact outputCode_mono le

end Span

end LockServo

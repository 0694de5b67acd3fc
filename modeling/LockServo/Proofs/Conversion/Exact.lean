import LockServo.Proofs.Conversion.Clamping
import LockServo.Proofs.Conversion.Counts

/-!
# Calibrated voltages without rounding errors

In exact arithmetic the place of a decoded voltage on the scale is its count, whatever the width, the sign
and the correction. What an encoder stores is the whole number nearest to the place, held in the range.
-/

namespace LockServo

open Arithmetic

theorem clampNonNegative_eq_max (q : ℚ) : clampNonNegative q = max 0 q :=
  Option.some.inj (toRat?_clampNonNegative (ν := ℚ) rfl)

theorem Correction.gain_pos (k : Correction ℚ) : 0 < k.sanitized.gain := by
  change 0 < k.usableGain.value
  unfold usableGain
  split
  · rename_i usable
    have above := (Bool.and_eq_true_iff.mp usable).2
    exact of_decide_eq_true above
  · decide +kernel

namespace Scale

variable {s : Scale ℚ} (k : Correction ℚ) (u : ℚ)

/-! ## Places and voltages -/

def stepUnder (s : Scale ℚ) (k : Correction ℚ) : ℚ := s.fullScale / (k.sanitized.gain * s.span)

theorem span_cast_pos (s : Scale ℚ) : (0 : ℚ) < s.span := by exact_mod_cast s.span_pos

theorem stepUnder_pos (positive : 0 < s.fullScale) : 0 < s.stepUnder k :=
  div_pos positive (mul_pos k.gain_pos s.span_cast_pos)

theorem span_mul_stepUnder : s.span * s.stepUnder k = s.fullScale / k.sanitized.gain := by
  have gain := k.gain_pos
  have span := s.span_cast_pos
  unfold stepUnder
  field_simp

theorem volts_eq (w : UInt32) :
    s.volts k u w = s.count w * s.stepUnder k + k.sanitized.offset + u := by
  have gain := k.gain_pos
  have span := s.span_cast_pos
  change (s.count w : ℚ) / s.span / k.sanitized.gain * s.fullScale + k.sanitized.offset + u = _
  rw [stepUnder]
  field_simp

theorem place_eq_div (positive : 0 < s.fullScale) (v : ℚ) :
    s.place k u v = (v - k.sanitized.offset - u) / s.stepUnder k := by
  have gain := k.gain_pos
  have span := s.span_cast_pos
  change (v - k.sanitized.offset - u) / s.fullScale * k.sanitized.gain * s.span = _
  rw [stepUnder]
  field_simp

theorem eq_place_mul (positive : 0 < s.fullScale) (v : ℚ) :
    v = s.place k u v * s.stepUnder k + k.sanitized.offset + u := by
  rw [place_eq_div k u positive, div_mul_cancel₀ _ (stepUnder_pos k positive).ne']
  ring

theorem place_volts (positive : 0 < s.fullScale) (w : UInt32) :
    s.place k u (s.volts k u w) = s.count w := by
  rw [place_eq_div k u positive, volts_eq, div_eq_iff (stepUnder_pos k positive).ne']
  ring

theorem place_mono (positive : 0 < s.fullScale) {v v' : ℚ} (le : v ≤ v') : s.place k u v ≤ s.place k u v' := by
  rw [place_eq_div k u positive, place_eq_div k u positive]
  exact div_le_div_of_nonneg_right (by linarith) (stepUnder_pos k positive).le

/-! ## What is stored -/

/-- The number of the range nearest to the place of a voltage. -/
def stored (s : Scale ℚ) (k : Correction ℚ) (u v : ℚ) : ℤ :=
  max s.lowest (min (nearestInt (s.place k u v)) s.highest)

theorem hold_roundAway (q : ℚ) :
    s.hold (roundAway q) = max s.lowest (min (nearestInt q) s.highest) :=
  s.hold_of_whole (ν := ℚ) rfl

theorem stored_mono (positive : 0 < s.fullScale) {v v' : ℚ} (le : v ≤ v') :
    s.stored k u v ≤ s.stored k u v' :=
  max_le_max le_rfl (min_le_min (nearestInt_mono (place_mono k u positive le)) le_rfl)

theorem stored_volts (positive : 0 < s.fullScale) (w : UInt32) :
    s.stored k u (s.volts k u w) = s.count w := by
  obtain ⟨low, high⟩ := s.count_bounds w
  rw [stored, place_volts k u positive, nearestInt_intCast]
  omega

theorem count_code (v : ℚ) : s.count (s.code k u v) = s.stored k u v := by
  have range := s.lowest_nonpos.trans s.highest_nonneg
  have held : s.hold (roundAway (s.place k u v)) = s.stored k u v := hold_roundAway _
  rw [code, held]
  exact s.count_ofInt_and_mask (le_max_left _ _) (max_le range (min_le_right _ _))

theorem code_masked (v : ℚ) : s.code k u v &&& s.mask = s.code k u v := by
  rw [code, UInt32.and_assoc, UInt32.and_self]

theorem code_eq_of_stored {v : ℚ} {w : UInt32} (same : s.stored k u v = s.count w) :
    s.code k u v = w &&& s.mask := by
  rw [← code_masked, ← ofInt_count_and_mask, count_code, same, ofInt_count_and_mask]

/-! ## Encoding and decoding -/

variable {k u} {v : ℚ}

theorem refused_iff :
    (isNaN v || (!s.signed && less v (ofNat 0))) = true ↔ ¬ (s.signed = true ∨ 0 ≤ v) := by
  have below : less v (ofNat 0) = decide (v < 0) := by
    change decide (v < (0 : ℕ)) = _
    rw [Nat.cast_zero]
  rw [below]
  change (false || _) = true ↔ _
  cases s.signed <;> simp

theorem encode_of_accepted (accepted : s.signed = true ∨ 0 ≤ v) :
    (s.encode k u v).run.value = .ok (s.code k u v) := by
  rw [encode_value, if_neg fun refused => refused_iff.mp refused accepted]

theorem encode_of_not_accepted (refused : ¬ (s.signed = true ∨ 0 ≤ v)) :
    (s.encode k u v).run.value = .error (.invalid .voltage v) := by
  rw [encode_value, if_pos (refused_iff.mpr refused)]

theorem decode_of_nonneg {w : UInt32} (nonneg : s.signed = true ∨ 0 ≤ s.volts k u w) :
    (s.decode k u w).value = s.volts k u w := by
  rw [decode_value, clampNonNegative_eq_max]
  rcases nonneg with signed | above
  · exact if_pos signed
  · rw [max_eq_right above, ite_self]

theorem decode_of_neg {w : UInt32} (unsigned : s.signed = false) (below : s.volts k u w < 0) :
    (s.decode k u w).value = 0 := by
  rw [decode_value, clampNonNegative_eq_max, unsigned, max_eq_left below.le]
  rfl

/-- A count whose voltage an unsigned field does not hold at zero is encoded as itself. -/
theorem code_decode_of_nonneg (positive : 0 < s.fullScale) {w : UInt32}
    (nonneg : s.signed = true ∨ 0 ≤ s.volts k u w) :
    s.code k u (s.decode k u w).value = w &&& s.mask := by
  rw [decode_of_nonneg nonneg]
  exact code_eq_of_stored k u (stored_volts k u positive w)

theorem decode_accepted (w : UInt32) : s.signed = true ∨ 0 ≤ (s.decode k u w).value := by
  cases signed : s.signed with
  | true => exact .inl rfl
  | false =>
    rw [decode_value, signed, clampNonNegative_eq_max]
    exact .inr (le_max_left _ _)

theorem volts_of_unsigned (unsigned : s.signed = false) (w : UInt32) :
    s.volts k u w = (w &&& s.mask).toNat * s.fullScale / (k.sanitized.gain * 2 ^ s.bits) +
      k.sanitized.offset + u := by
  have span : (s.span : ℚ) = 2 ^ s.bits := by
    have whole := s.two_pow_bits
    rw [unsigned] at whole
    exact_mod_cast whole.symm
  rw [volts_eq, stepUnder, span, s.count_of_unsigned unsigned, Int.cast_natCast, mul_div_assoc]

/-- Where zero volts is above the voltage of a count, zero volts is also worth more counts. -/
theorem count_le_stored_zero (positive : 0 < s.fullScale) {w : UInt32} (below : s.volts k u w < 0) :
    s.count w ≤ s.stored k u 0 := by
  rw [← stored_volts k u positive]
  exact stored_mono k u positive below.le

theorem code_code_decode (positive : 0 < s.fullScale) (accepted : s.signed = true ∨ 0 ≤ v) :
    s.code k u (s.decode k u (s.code k u v)).value = s.code k u v := by
  by_cases nonneg : s.signed = true ∨ 0 ≤ s.volts k u (s.code k u v)
  · rw [code_decode_of_nonneg positive nonneg, code_masked]
  · obtain ⟨unsigned, below⟩ := not_or.mp nonneg
    have zero_le : 0 ≤ v := accepted.resolve_left unsigned
    have up := count_le_stored_zero positive (not_le.mp below)
    have down := stored_mono k u positive zero_le
    rw [count_code] at up
    rw [decode_of_neg (Bool.eq_false_iff.mpr unsigned) (not_le.mp below)]
    have same : s.stored k u 0 = s.count (s.code k u v) := (le_antisymm down up).trans (count_code k u v).symm
    rw [code_eq_of_stored k u same, code_masked]

/-- Encoding undoes decoding. A voltage settles in one round, a word keeps the bits of its field, and
only a word that an unsigned field reads as zero, being below, goes up to the word of zero volts. -/
theorem encode_decode_retracts {s : Scale ℚ} (positive : 0 < s.fullScale) (k : Correction ℚ) (u : ℚ) :
    let readsAboveZero (w : UInt32) := s.signed = true ∨ 0 ≤
      (w &&& s.mask).toNat * s.fullScale / (k.sanitized.gain * 2 ^ s.bits) + k.sanitized.offset + u
    (∀ v : ℚ, s.signed = true ∨ 0 ≤ v → ∃ n, (s.encode k u v).run.value = .ok n ∧
      (s.encode k u (s.decode k u n).value).run.value = .ok n) ∧
    (∀ w : UInt32, readsAboveZero w →
      (s.encode k u (s.decode k u w).value).run.value = .ok (w &&& s.mask)) ∧
    (∀ w : UInt32, ¬ readsAboveZero w → ∃ n,
      (s.encode k u (s.decode k u w).value).run.value = .ok n ∧
      (s.encode k u 0).run.value = .ok n ∧ w &&& s.mask ≤ n) := by
  intro readsAboveZero
  have reads : ∀ w, readsAboveZero w ↔ s.signed = true ∨ 0 ≤ s.volts k u w := by
    intro w
    cases signed : s.signed with
    | true => simp [readsAboveZero, signed]
    | false => simp [readsAboveZero, signed, volts_of_unsigned signed]
  refine ⟨?_, ?_, ?_⟩
  · intro v accepted
    refine ⟨s.code k u v, encode_of_accepted accepted, ?_⟩
    rw [encode_of_accepted (decode_accepted _), code_code_decode positive accepted]
  · intro w above
    rw [encode_of_accepted (decode_accepted _), code_decode_of_nonneg positive ((reads w).mp above)]
  · intro w notAbove
    obtain ⟨unsigned, below⟩ := not_or.mp (mt (reads w).mpr notAbove)
    have zero := decode_of_neg (Bool.eq_false_iff.mpr unsigned) (not_le.mp below)
    refine ⟨s.code k u 0, ?_, encode_of_accepted (.inr le_rfl), ?_⟩
    · rw [zero, encode_of_accepted (.inr le_rfl)]
    · have up := count_le_stored_zero positive (not_le.mp below)
      have off := Bool.eq_false_iff.mpr unsigned
      rw [← count_code, s.count_of_unsigned off, s.count_of_unsigned off, code_masked] at up
      exact UInt32.le_iff_toNat_le.mpr (by exact_mod_cast up)

/-- An eight-count field that reads its words 0 to 3 as zero, where zero volts is nearest to 3 counts. -/
theorem encode_decode_retracts_below_zero :
    let s : Scale ℚ := ⟨3, 5, false, by decide, by decide⟩
    let k : Correction ℚ := ⟨2, -1⟩
    0 < s.fullScale ∧ (s.encode k 0 (s.decode k 0 0xFA).value).run.value = .ok 3 ∧
      (s.encode k 0 (s.decode k 0 0xFC).value).run.value = .ok 4 ∧
      (s.encode k 0 9).run.value = .ok 7 ∧ (s.encode k 0 (s.decode k 0 7).value).run.value = .ok 7 := by
  intro s k
  have positive : 0 < s.fullScale := by decide
  have zero : s.code k 0 0 = 3 := by decide +kernel
  have saturated : s.code k 0 9 = 7 := by decide +kernel
  have accepted : s.signed = true ∨ (0 : ℚ) ≤ 9 := .inr (by decide)
  obtain ⟨settles, keeps, rises⟩ := encode_decode_retracts positive k 0
  obtain ⟨n, risen, atZero, -⟩ := rises 0xFA (by decide +kernel)
  obtain ⟨m, first, again⟩ := settles 9 accepted
  have n_eq := Except.ok.inj (atZero.symm.trans (encode_of_accepted (.inr le_rfl)))
  have m_eq := Except.ok.inj (first.symm.trans (encode_of_accepted accepted))
  rw [zero] at n_eq
  rw [saturated] at m_eq
  subst n_eq m_eq
  have kept := keeps 0xFC (.inr (by decide +kernel))
  have masked : 0xFC &&& s.mask = 4 := by decide
  rw [masked] at kept
  exact ⟨positive, risen, kept, first, again⟩

/-! ## Accuracy -/

variable (s k u)

def bottom : ℚ :=
  k.sanitized.offset + u - if s.signed then s.fullScale / k.sanitized.gain else 0

/-- The voltage at the upper end of the range, which is one count above the highest. -/
def top : ℚ := k.sanitized.offset + u + s.fullScale / k.sanitized.gain

variable {s k u}

theorem bottom_eq : s.bottom k u = s.lowest * s.stepUnder k + k.sanitized.offset + u := by
  rw [bottom, lowest_eq, ← span_mul_stepUnder]
  split <;> push_cast <;> ring

theorem top_eq : s.top k u = (s.highest + 1) * s.stepUnder k + k.sanitized.offset + u := by
  rw [top, highest, ← span_mul_stepUnder]
  push_cast
  ring

theorem lt_place_iff (positive : 0 < s.fullScale) (m : ℚ) :
    m < s.place k u v ↔ m * s.stepUnder k + k.sanitized.offset + u < v := by
  rw [place_eq_div k u positive, lt_div_iff₀ (stepUnder_pos k positive)]
  constructor <;> intro _ <;> linarith

theorem place_lt_iff (positive : 0 < s.fullScale) (m : ℚ) :
    s.place k u v < m ↔ v < m * s.stepUnder k + k.sanitized.offset + u := by
  rw [place_eq_div k u positive, div_lt_iff₀ (stepUnder_pos k positive)]
  constructor <;> intro _ <;> linarith

theorem stored_of_top_lt (positive : 0 < s.fullScale) (above : s.top k u < v) :
    s.stored k u v = s.highest := by
  rw [top_eq, ← lt_place_iff positive] at above
  have rounded : nearestInt (s.highest + 1 : ℤ) ≤ nearestInt (s.place k u v) :=
    nearestInt_mono (by push_cast; exact above.le)
  have range := s.lowest_nonpos.trans s.highest_nonneg
  rw [nearestInt_intCast] at rounded
  rw [stored]
  omega

theorem stored_of_lt_bottom (positive : 0 < s.fullScale) (below : v < s.bottom k u) :
    s.stored k u v = s.lowest := by
  rw [bottom_eq, ← place_lt_iff positive] at below
  have rounded := nearestInt_mono below.le
  rw [nearestInt_intCast] at rounded
  rw [stored]
  omega

/-- Inside the range only the last half count is held back, and by at most as much again. -/
theorem abs_stored_sub_place_le (positive : 0 < s.fullScale) (above : s.bottom k u ≤ v)
    (below : v ≤ s.top k u) :
    |s.stored k u v - s.place k u v| ≤ 1 ∧
      (s.place k u v ≤ s.highest + 1 / 2 → |s.stored k u v - s.place k u v| ≤ 1 / 2) := by
  have low : s.lowest ≤ s.place k u v := by
    rw [← not_lt, place_lt_iff positive, ← bottom_eq, not_lt]
    exact above
  have high : s.place k u v ≤ s.highest + 1 := by
    rw [← not_lt, lt_place_iff positive, ← top_eq, not_lt]
    exact below
  have rounded := nearestInt_mono low
  have near := abs_nearestInt_sub_le (s.place k u v)
  rw [nearestInt_intCast] at rounded
  rcases le_or_gt (nearestInt (s.place k u v)) s.highest with within | beyond
  · have kept : s.stored k u v = nearestInt (s.place k u v) := by
      rw [stored]
      omega
    rw [kept]
    exact ⟨near.trans (by norm_num), fun _ => near⟩
  · have held : s.stored k u v = s.highest := by
      have range := s.lowest_nonpos.trans s.highest_nonneg
      rw [stored]
      omega
    have last := le_of_lt_nearestInt beyond
    rw [held, abs_sub_comm, abs_of_nonneg (by linarith)]
    exact ⟨by linarith, fun half => by linarith⟩

theorem abs_decode_sub_le (positive : 0 < s.fullScale) (accepted : s.signed = true ∨ 0 ≤ v) (w : UInt32) :
    |(s.decode k u w).value - v| ≤ |s.count w - s.place k u v| * s.stepUnder k := by
  have scaled : |s.volts k u w - v| = |s.count w - s.place k u v| * s.stepUnder k := by
    have line : s.volts k u w - v = (s.count w - s.place k u v) * s.stepUnder k := by
      rw [volts_eq, sub_mul]
      linarith [eq_place_mul k u positive v]
    rw [line, abs_mul, abs_of_pos (stepUnder_pos k positive)]
  rw [decode_value, ← scaled]
  split
  · exact le_rfl
  · rename_i unsigned
    rw [clampNonNegative_eq_max]
    exact abs_max_sub_le (.inl (accepted.resolve_left unsigned))

/-- A voltage of the range comes back within one count of itself, and within half a count except in the
half count at the upper end. Beyond either end the count is that end's, and an unsigned field refuses what
is below zero. -/
theorem encode_decode_accuracy {s : Scale ℚ} (positive : 0 < s.fullScale) (k : Correction ℚ) (u v : ℚ) :
    (s.signed = true ∨ 0 ≤ v → ∃ n, (s.encode k u v).run.value = .ok n ∧ n &&& s.mask = n ∧
      (s.bottom k u ≤ v → v ≤ s.top k u →
        |(s.decode k u n).value - v| ≤ s.fullScale / (k.sanitized.gain * s.span) ∧
        (¬ s.highest + 1 / 2 < (v - k.sanitized.offset - u) * k.sanitized.gain * s.span / s.fullScale →
          |(s.decode k u n).value - v| ≤ s.fullScale / (2 * k.sanitized.gain * s.span))) ∧
      (s.top k u < v → s.count n = s.highest) ∧ (v < s.bottom k u → s.count n = s.lowest)) ∧
    (¬ (s.signed = true ∨ 0 ≤ v) → (s.encode k u v).run.value = .error (.invalid .voltage v)) := by
  refine ⟨fun accepted => ?_, encode_of_not_accepted⟩
  refine ⟨s.code k u v, encode_of_accepted accepted, code_masked k u v, ?_, ?_, ?_⟩
  · intro above below
    obtain ⟨whole, half⟩ := abs_stored_sub_place_le positive above below
    have step := stepUnder_pos k positive
    have error : |(s.decode k u (s.code k u v)).value - v| ≤ _ := abs_decode_sub_le positive accepted _
    rw [count_code] at error
    refine ⟨?_, fun inside => ?_⟩
    · calc _ ≤ _ := error
        _ ≤ 1 * s.stepUnder k := by gcongr
        _ = s.fullScale / (k.sanitized.gain * s.span) := one_mul _
    · have place : s.place k u v =
          (v - k.sanitized.offset - u) * k.sanitized.gain * s.span / s.fullScale := by
        rw [place_eq_div k u positive, stepUnder, div_div_eq_mul_div, mul_assoc]
      rw [← place, not_lt] at inside
      calc _ ≤ _ := error
        _ ≤ 1 / 2 * s.stepUnder k := by
          gcongr
          exact half inside
        _ = s.fullScale / (2 * k.sanitized.gain * s.span) := by
          rw [stepUnder, div_mul_div_comm, one_mul, mul_assoc]
  · intro above
    rw [count_code, stored_of_top_lt positive above]
  · intro below
    rw [count_code, stored_of_lt_bottom positive below]

/-- A field of three bits with a sign and one volt a count, at both ends and half a volt beyond them. -/
theorem encode_decode_accuracy_at_the_ends :
    let s : Scale ℚ := ⟨3, 2, true, by decide, by decide⟩
    let k : Correction ℚ := ⟨1 / 2, 0⟩
    0 < s.fullScale ∧
      (∃ n, (s.encode k 0 4).run.value = .ok n ∧ |(s.decode k 0 n).value - 4| ≤ 1) ∧
      (∃ n, (s.encode k 0 (-4)).run.value = .ok n ∧ |(s.decode k 0 n).value - -4| ≤ 1 / 2) ∧
      (∃ n, (s.encode k 0 (9 / 2)).run.value = .ok n ∧ s.count n = 3) ∧
      ∃ n, (s.encode k 0 (-9 / 2)).run.value = .ok n ∧ s.count n = -4 := by
  intro s k
  have positive : 0 < s.fullScale := by decide
  have bottom : s.bottom k 0 = -4 := by decide +kernel
  have top : s.top k 0 = 4 := by decide +kernel
  have step : s.fullScale / (k.sanitized.gain * s.span) = 1 := by decide +kernel
  have halfStep : s.fullScale / (2 * k.sanitized.gain * s.span) = 1 / 2 := by decide +kernel
  have accuracy : ∀ v, _ := fun v => (encode_decode_accuracy positive k 0 v).1 (.inl rfl)
  rw [bottom, top, step, halfStep] at accuracy
  refine ⟨positive, ?_, ?_, ?_, ?_⟩
  · obtain ⟨n, encoded, -, error, -, -⟩ := accuracy 4
    exact ⟨n, encoded, (error (by norm_num) le_rfl).1⟩
  · obtain ⟨n, encoded, -, error, -, -⟩ := accuracy (-4)
    exact ⟨n, encoded, (error le_rfl (by norm_num)).2 (by decide +kernel)⟩
  · obtain ⟨n, encoded, -, -, above, -⟩ := accuracy (9 / 2)
    exact ⟨n, encoded, above (by norm_num)⟩
  · obtain ⟨n, encoded, -, -, -, below⟩ := accuracy (-9 / 2)
    exact ⟨n, encoded, below (by norm_num)⟩

end Scale

end LockServo

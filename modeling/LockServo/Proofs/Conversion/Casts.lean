import LockServo.Proofs.Conversion.Order

/-!
# What reaches the integer casts

No accepted number becomes a NaN on its way through an encoder, whatever the calibration is, and what an
encoder casts is a whole number of its range. So no cast has to hold a number at an end of an integer type or
to put zero in place of a NaN.
-/

namespace LockServo

open Arithmetic MonotoneRounding

/-! ## Rounded numbers -/

section

variable {ν : Type} [Arithmetic ν] [MonotoneRounding ν] {x : ν} {low high m : ℤ}

theorem place_ofInt (small : |m| ≤ 2 ^ 52) : place? (ofInt m : ν) = some (.finite m) :=
  ofRat_of_double (Binary64.onGrid_intCast small)

/-- A rounded number that is neither above nor below a range is a whole number of the range. -/
theorem exists_whole_of_between (number : isNaN x = false) (small : |low| ≤ 2 ^ 52) (small' : |high| ≤ 2 ^ 52)
    (notAbove : less (ofInt high) (roundAway x) = false)
    (notBelow : less (roundAway x) (ofInt low) = false) :
    ∃ m : ℤ, place? (roundAway x) = some (.finite m) ∧ low ≤ m ∧ m ≤ high := by
  obtain ⟨a, ha⟩ := isNaN_iff.mp number
  have rounded := roundAway_eq ha
  rw [less_eq (place_ofInt small') rounded] at notAbove
  rw [less_eq rounded (place_ofInt small)] at notBelow
  have le := not_lt.mp (of_decide_eq_false notAbove)
  have ge := not_lt.mp (of_decide_eq_false notBelow)
  match a with
  | ⊥ => exact absurd ge (WithBot.not_coe_le_bot _)
  | (⊤ : WithTop ℚ) => exact absurd (WithBot.coe_le_coe.mp le) (WithTop.not_top_le_coe _)
  | ((q : ℚ) : WithTop ℚ) =>
    exact ⟨nearestInt q, rounded, by exact_mod_cast Line.finite_le_finite.mp ge,
      by exact_mod_cast Line.finite_le_finite.mp le⟩

theorem truncate_of_whole (hx : place? x = some (.finite m)) (ge : low ≤ m) (le : m ≤ high) :
    truncate low high x = m := by
  rw [truncate_eq hx]
  change max low (min high (wholePart m)) = m
  rw [wholePart_intCast]
  omega

theorem not_less_of_less (above : less (ofInt high : ν) x = true) (number : isNaN x = false) (le : low ≤ high)
    (small : |low| ≤ 2 ^ 52) (small' : |high| ≤ 2 ^ 52) : less x (ofInt low) = false := by
  obtain ⟨a, ha⟩ := isNaN_iff.mp number
  rw [less_eq (place_ofInt small') ha] at above
  rw [less_eq ha (place_ofInt small)]
  have ends : Line.finite low ≤ .finite high := Line.finite_le_finite.mpr (by exact_mod_cast le)
  exact decide_eq_false (ends.trans (of_decide_eq_true above).le).not_gt

theorem Gain.not_below {factor v : ν} (positive : Positive factor) (number : isNaN v = false)
    (nonneg : less v (ofNat 0) = false) : less (roundAway (v * factor)) (ofNat 0) = false := by
  obtain ⟨q, hq, pos⟩ := positive_iff.mp positive
  have zero : AtMost (ofNat 0) v := ⟨isNaN_ofInt 0, number, nonneg⟩
  have scaled : place? (ofNat 0 * factor : ν) = some (.finite 0) := by
    rw [mul_eq place_ofNat_zero hq pos]
    change some (MonotoneRounding.round ν (0 * q)) = _
    rw [zero_mul, round_double (by decide +kernel)]
  have rounded : place? (roundAway (ofNat 0 * factor : ν)) = some (.finite 0) := by
    have whole : nearestInt 0 = 0 := by decide +kernel
    rw [roundAway_eq scaled]
    change some (Line.finite (nearestInt 0)) = _
    rw [whole, Int.cast_zero]
  obtain ⟨a, b, ha, hb, le⟩ := atMost_iff.mp (zero.mul_right positive).roundAway
  obtain rfl := Option.some.inj (ha.symm.trans rounded)
  rw [less_eq hb place_ofNat_zero]
  exact decide_eq_false le.not_gt

end

/-! ## Casts of doubles -/

/-- What an encoder makes of a rounded value: past an end of the range it counts as that end, and anything
else is a whole number of the range, which the cast gives as it is. -/
structure CastsWhole (raw : Binary64) (low high cast count : ℤ) : Prop where
  number : isNaN raw = false
  above : less (ofInt high) raw = true → count = high
  below : less raw (ofInt low) = true → count = low
  within : less (ofInt high) raw = false → less raw (ofInt low) = false →
    ∃ m : ℤ, raw.toRat? = some (m : ℚ) ∧ low ≤ m ∧ m ≤ high ∧ cast = m ∧ count = m

namespace Scale

variable {s : Scale Binary64} {u v : Binary64}

theorem castsWhole (k : Correction Binary64) (positive : Positive s.fullScale) (finite : isFinite u = true)
    (number : isNaN v = false) :
    CastsWhole (roundAway (s.place k u v)) s.lowest s.highest
      (truncate (-0x8000000000000000) 0x7FFFFFFFFFFFFFFF (roundAway (s.place k u v)))
      (s.count (s.code k u v)) := by
  have low := s.lowest_nonpos
  have high := s.highest_nonneg
  have small : |s.lowest| ≤ 2 ^ 52 := by
    have low_ge := s.lowest_ge
    rw [abs_le]
    omega
  have small' : |s.highest| ≤ 2 ^ 52 := by
    have high_lt := s.highest_lt
    rw [abs_le]
    omega
  have placed := place_le (k := k) positive finite (AtMost.of_isNaN number)
  have rounded := placed.roundAway.1
  rw [count_code_of_isNaN placed.1]
  refine ⟨rounded, fun above => if_pos above, fun below => ?_, fun notAbove notBelow => ?_⟩
  · have notAbove : ¬ less (ofInt s.highest) (roundAway (s.place k u v)) = true := fun above => by
      rw [not_less_of_less above rounded (low.trans high) small small'] at below
      exact Bool.noConfusion below
    rw [hold, if_neg notAbove, if_pos below]
  · obtain ⟨m, hm, ge, le⟩ := exists_whole_of_between placed.1 small small' notAbove notBelow
    have cast : truncate (-0x8000000000000000) 0x7FFFFFFFFFFFFFFF (roundAway (s.place k u v)) = m := by
      rw [abs_le] at small small'
      exact truncate_of_whole hm (by omega) (by omega)
    refine ⟨m, Binary64.toRat?_of_place hm, ge, le, cast, ?_⟩
    rw [hold, notAbove, notBelow, cast]
    rfl

theorem code_le_mask (k : Correction Binary64) : s.code k u v ≤ s.mask := by
  rw [UInt32.le_iff_toNat_le, code, UInt32.toNat_and]
  exact Nat.and_le_right

end Scale

namespace Gain

variable {factor v : Binary64}

theorem castsWhole (mask : UInt32) (positive : Positive factor) (number : isNaN v = false)
    (nonneg : less v (ofNat 0) = false) :
    CastsWhole (roundAway (v * factor)) 0 mask.toNat (truncate 0 0xFFFFFFFF (roundAway (v * factor)))
      (code factor mask v).toNat := by
  have wide := mask.toNat_lt
  have small : |(mask.toNat : ℤ)| ≤ 2 ^ 52 := by
    rw [Nat.abs_cast]
    omega
  have scaled := (AtMost.of_isNaN number).mul_right positive
  refine ⟨scaled.roundAway.1, fun above => ?_, fun below => ?_, fun notAbove notBelow => ?_⟩
  · exact congrArg (fun n : UInt32 => (n.toNat : ℤ)) (if_pos above)
  · exact absurd below (Bool.eq_false_iff.mp (not_below positive number nonneg))
  · obtain ⟨m, hm, ge, le⟩ := exists_whole_of_between scaled.1 (by decide) small notAbove notBelow
    have cast : truncate 0 0xFFFFFFFF (roundAway (v * factor)) = m := truncate_of_whole hm ge (by omega)
    refine ⟨m, Binary64.toRat?_of_place hm, ge, le, cast, ?_⟩
    rw [toNat_code_eq mask scaled.roundAway.1, cast, min_eq_left le]

theorem code_le (mask : UInt32) (positive : Positive factor) (number : isNaN v = false) :
    code factor mask v ≤ mask := by
  have held := toNat_code_eq mask ((AtMost.of_isNaN number).mul_right positive).roundAway.1
  rw [UInt32.le_iff_toNat_le]
  omega

end Gain

/-- From every accepted number, infinities included, and under every calibration, an encoder computes a number
that is no NaN, casts it only where it is a whole number of the range, and returns that number, or the end of
the range that it is past. The absolute encoders return counts of their spans. -/
theorem casts_are_exact :
    (∀ (s : Scale Binary64) (k : Correction Binary64) (u v : Binary64), Positive s.fullScale →
      isFinite u = true → (isNaN v || (!s.signed && less v (ofNat 0))) = false →
      let raw := roundAway
        ((v - k.usableOffset.value - u) / s.fullScale * k.usableGain.value * ofNat s.span)
      ∃ n, (s.encode k u v).run.value = .ok n ∧ n ≤ s.mask ∧
        CastsWhole raw s.lowest s.highest (truncate (-0x8000000000000000) 0x7FFFFFFFFFFFFFFF raw)
          (s.count n)) ∧
    (∀ (quantity : Quantity) (factor : Binary64) (mask : UInt32) (v : Binary64), Positive factor →
      (isNaN v || less v (ofNat 0)) = false →
      let raw := roundAway (v * factor)
      ∃ n, (Gain.encode quantity factor mask v).run.value = .ok n ∧ n ≤ mask ∧
        CastsWhole raw 0 mask.toNat (truncate 0 0xFFFFFFFF raw) n.toNat) ∧
    (∀ v : Binary64, isNaN v = false → ∃ n, (Span.encodeInput v).run.value = .ok n ∧ n ≤ 4095) ∧
    ∀ v : Binary64, (isNaN v || less v (ofNat 0)) = false →
      ∃ n, (Span.encodeOutput v).run.value = .ok n ∧ n ≤ 156 := by
  refine ⟨?_, ?_, ?_, ?_⟩
  · intro s k u v positive finite accepted raw
    have number := (Bool.or_eq_false_iff.mp accepted).1
    refine ⟨s.code k u v, ?_, Scale.code_le_mask k, Scale.castsWhole k positive finite number⟩
    rw [Scale.encode_value, accepted]
    rfl
  · intro quantity factor mask v positive accepted raw
    obtain ⟨number, nonneg⟩ := Bool.or_eq_false_iff.mp accepted
    refine ⟨Gain.code factor mask v, ?_, Gain.code_le mask positive number,
      Gain.castsWhole mask positive number nonneg⟩
    rw [Gain.encode_value, accepted]
    rfl
  · intro v number
    refine ⟨Span.inputCode v, ?_, ?_⟩
    · rw [Span.encodeInput_value, number]
      rfl
    · rw [UInt32.le_iff_toNat_le, Span.toNat_inputCode]
      exact Nat.min_le_right _ _
  · intro v accepted
    have number := (Bool.or_eq_false_iff.mp accepted).1
    refine ⟨Span.outputCode v, ?_, UInt32.le_iff_toNat_le.mpr (Span.outputCode_le number)⟩
    rw [Span.encodeOutput_value, accepted]
    rfl

/-- The widest signed field under a record that is no correction, and infinities everywhere. -/
theorem casts_are_exact_at_infinity :
    let s : Scale Binary64 := ⟨31, .ofRat (1 / 3), true, by decide, by decide⟩
    let k : Correction Binary64 := ⟨.nan true, .infinite true⟩
    let raw := roundAway ((.infinite true - k.usableOffset.value - .ofRat 7) / s.fullScale *
      k.usableGain.value * ofNat s.span)
    (∃ n, (s.encode k (.ofRat 7) (.infinite true)).run.value = .ok n ∧ n ≤ s.mask ∧
      CastsWhole raw s.lowest s.highest (truncate (-0x8000000000000000) 0x7FFFFFFFFFFFFFFF raw)
        (s.count n)) ∧
    (∃ n, (Gain.encode .integral (.ofRat (1 / 3)) 0xFFFFFFFF (.infinite false : Binary64)).run.value = .ok n ∧
      n ≤ 0xFFFFFFFF ∧
      CastsWhole (roundAway (.infinite false * .ofRat (1 / 3))) 0 (0xFFFFFFFF : UInt32).toNat
        (truncate 0 0xFFFFFFFF (roundAway (.infinite false * .ofRat (1 / 3) : Binary64))) n.toNat) ∧
    (∃ n, (Span.encodeInput (.infinite true : Binary64)).run.value = .ok n ∧ n ≤ 4095) ∧
    ∃ n, (Span.encodeOutput (.infinite false : Binary64)).run.value = .ok n ∧ n ≤ 156 := by
  intro s k raw
  obtain ⟨scales, gains, inputs, outputs⟩ := casts_are_exact
  have positive : Positive s.fullScale := by
    unfold Positive
    decide +kernel
  have positive' : Positive (.ofRat (1 / 3) : Binary64) := by
    unfold Positive
    decide +kernel
  exact ⟨scales s k (.ofRat 7) (.infinite true) positive (by decide +kernel) (by decide +kernel),
    gains .integral (.ofRat (1 / 3)) 0xFFFFFFFF (.infinite false) positive' (by decide +kernel),
    inputs (.infinite true) (by decide +kernel), outputs (.infinite false) (by decide +kernel)⟩

end LockServo

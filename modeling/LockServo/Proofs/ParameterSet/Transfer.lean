import LockServo.Proofs.Binary64.Accuracy
import LockServo.Proofs.Conversion.Sanitized
import LockServo.Proofs.ParameterSet.Recoding

/-!
# Moving parameters to another instrument

Under a shared calibration with moderate gains and offsets, a capture put back on another instrument
reproduces every parameter bit for bit, although the values on the way are rounded doubles. Nothing
else on that instrument changes, and its own capture is the one that was put back.
-/

namespace LockServo

open Accurate Arithmetic Register

theorem Correction.uses_sanitized (c : Correction Binary64) :
    Scale.Uses c c.sanitized.gain.toRat c.sanitized.offset.toRat where
  gain := if_pos c.finite_sanitized.1
  offset := if_pos c.finite_sanitized.2

/-- Every correction in use has a gain between `2 ^ (-10)` and `2 ^ 10` and an offset between zero and
one. -/
def Calibration.Moderate (c : Calibration Binary64) : Prop :=
  ∀ d : Channel,
    Scale.Moderate (c.input.get d).sanitized.gain.toRat (c.input.get d).sanitized.offset.toRat ∧
    Scale.Moderate (c.output.get d).sanitized.gain.toRat (c.output.get d).sanitized.offset.toRat

theorem Register.Place.recode_of_moderate {c : Calibration Binary64} (h : c.Moderate) {p : Place}
    (parameter : p.isParameter = true) {n : UInt32} (masked : n &&& p.mask = n) :
    (p.recode c c n).run.value = .ok n := by
  cases correction : p.correction? c with
  | none => exact recode_of_no_correction c c parameter correction masked
  | some k =>
    have moderate : Scale.Moderate k.sanitized.gain.toRat k.sanitized.offset.toRat := by
      cases p with
      | switch l f => cases correction
      | number f adjustable =>
        cases f with
        | setpoint l =>
          obtain rfl := Option.some.inj correction
          exact (h l.input).1
        | limit d b =>
          obtain rfl := Option.some.inj correction
          exact (h d).2
        | _ => cases correction
    rw [mask_of_correction correction] at masked
    obtain ⟨v, hv, -⟩ := Scale.volts_near k.uses_sanitized moderate masked
    rw [recode_of_correction correction hv, Scale.code_clamp_volts k.uses_sanitized moderate masked]

/-- A capture of one instrument, put back on another that shares its calibration. -/
theorem transfer_reproduces_parameters {i j : Instrument Binary64} (hi : i.Sound) (hj : j.Sound)
    (shared : j.calibration = i.calibration) (moderate : i.calibration.Moderate) :
    ∃ (set : ParameterSet Binary64) (after : Instrument Binary64),
      (ParameterSet.capture.perform i).value = (.ok set, i) ∧
      (set.apply.perform j).value = (.ok (), after) ∧
      (∀ p : Place, p.isParameter = true → after.value p = i.value p) ∧
      (∀ (b : Block) (offset k : Nat), b.IsWord offset →
        (∀ p : Place, p.isParameter = true → ¬ p.Covers b offset k) →
        bit (after.word b offset) k = bit (j.word b offset) k) ∧
      (ParameterSet.capture.perform after).value = (.ok set, after) := by
  have recoded : ∀ p : Place, p.isParameter = true →
      (p.recode i.calibration j.calibration (i.value p)).run.value = .ok (i.value p) := by
    intro p parameter
    rw [shared]
    exact Place.recode_of_moderate moderate parameter (Instrument.value_and_mask p)
  have places : ∀ p : Place, p.isParameter = true → (j.restore i.value).value p = i.value p := by
    intro p parameter
    rw [Instrument.value_restore hj, if_pos parameter, Instrument.value_and_mask]
  have captured : (j.restore i.value).parameters = i.parameters :=
    Instrument.parameters_eq_of_value_eq (Instrument.restore_calibration.trans shared) places
  refine ⟨i.parameters, j.restore i.value, ParameterSet.capture_value hi.fullSize,
    Instrument.apply_parameters hj.fullSize recoded, places, ?_, ?_⟩
  · intro b offset k inside uncovered
    exact Instrument.bit_restore hj inside uncovered
  · rw [ParameterSet.capture_value (Instrument.restore_sound hj).fullSize, captured]

/-- A setpoint and a step size that no double holds exactly. -/
theorem transfer_reproduces_uneven_values :
    let uneven : Correction Binary64 := ⟨.ofRat (1 / 3), .ofRat (1 / 10)⟩
    let record : Calibration Binary64 := ⟨⟨uneven, .ideal⟩, ⟨.ideal, uneven⟩⟩
    let l : Loop := ⟨.one, .two⟩
    let i := ((Instrument.blank record).put (.number (.setpoint l)) 0x2AAB).put
      (.number (.relockStep l)) 0xABCDEF
    let j := Instrument.blank record
    i.Sound ∧ j.Sound ∧ j.calibration = i.calibration ∧ i.calibration.Moderate ∧
      ∃ (set : ParameterSet Binary64) (after : Instrument Binary64),
        (ParameterSet.capture.perform i).value = (.ok set, i) ∧
        (set.apply.perform j).value = (.ok (), after) ∧
        after.value (.number (.setpoint l)) = 0x2AAB ∧
        after.value (.number (.relockStep l)) = 0xABCDEF := by
  intro uneven record l i j
  have hj : j.Sound := Instrument.blank_sound record
  have hi : i.Sound := Instrument.put_sound (Instrument.put_sound hj _ _) _ _
  have shared : j.calibration = i.calibration := by
    rw [Instrument.put_calibration, Instrument.put_calibration]
  have moderate : i.calibration.Moderate := by
    have ideal : Scale.Moderate (Correction.ideal (ν := Binary64)).sanitized.gain.toRat
        (Correction.ideal (ν := Binary64)).sanitized.offset.toRat :=
      ⟨by decide +kernel, by decide +kernel, by decide +kernel, by decide +kernel⟩
    have unevenModerate : Scale.Moderate uneven.sanitized.gain.toRat uneven.sanitized.offset.toRat :=
      ⟨by decide +kernel, by decide +kernel, by decide +kernel, by decide +kernel⟩
    rw [← shared]
    intro d
    cases d with
    | one => exact ⟨unevenModerate, ideal⟩
    | two => exact ⟨ideal, unevenModerate⟩
  obtain ⟨set, after, captured, applied, places, -⟩ :=
    transfer_reproduces_parameters hi hj shared moderate
  refine ⟨hi, hj, shared, moderate, set, after, captured, applied, ?_, ?_⟩
  · rw [places _ rfl]
    decide +kernel
  · rw [places _ rfl]
    decide +kernel

end LockServo

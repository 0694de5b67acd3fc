import LockServo.Proofs.Binary64.Sign
import LockServo.Proofs.Conversion.Values
import LockServo.Proofs.ParameterSet.Restore

/-!
# Readings are accepted

In doubles every reading of a parameter or of a slow output is unsigned or a raw count, whatever the
words and the calibration, so it is accepted by its setter under any other calibration. The calibration
may hold any doubles: an unusable one is replaced, and what overflows is cut at zero from below only.
-/

namespace LockServo

open Arithmetic Binary64 Register

theorem Gain.unsigned_decode {factor : Binary64} (h : factor.Positive) (n : UInt32) :
    (Gain.decode factor n).Unsigned := by
  rw [Gain.decode]
  exact (unsigned_ofNat n.toNat).div h

theorem Span.unsigned_voltage {s : Span} (low : 0 ≤ s.low) (top : (ofNat s.top : Binary64).Positive)
    (length : (ofRat s.high - ofRat s.low : Binary64).Positive) (n : UInt32) :
    (s.voltage n : Binary64).Unsigned := by
  rw [Span.voltage]
  exact (((unsigned_ofNat n.toNat).div top).mul length).add (unsigned_ofRat low)

namespace Register

/-- Whether a setter of the place takes a voltage or a gain, and not a raw count. -/
def Place.isPhysical : Place → Bool
  | .number (.derivative _) _ | .number (.relockPin _) _ | .switch .. => false
  | _ => true

theorem Place.unsigned_quantity (c : Calibration Binary64) {f : Field} (adjustable : f.isAdjustable = true)
    (physical : (Place.number f adjustable).isPhysical = true) (n : UInt32) :
    (f.quantity c n).Unsigned := by
  cases f with
  | setpoint | limit =>
    rw [Field.quantity, Scale.unipolar_decode_value]
    exact unsigned_clampNonNegative _
  | proportional | integral | relockStep => exact Gain.unsigned_decode (by decide +kernel) n
  | relockLow | relockHigh | slowOutput =>
    exact Span.unsigned_voltage (by decide +kernel) (by decide +kernel) (by decide +kernel) n
  | derivative | relockPin => cases physical
  | features | slowInput | fastInput | fastOutput => cases adjustable

/-- A reading under one calibration is accepted under any other. -/
theorem Place.recode_accepted (c c' : Calibration Binary64) (p : Place) (n : UInt32) :
    ∃ count, (p.recode c c' n).run.value = .ok count := by
  cases p with
  | switch l f => exact ⟨n, rfl⟩
  | number f adjustable =>
    have sound : (Place.number f adjustable).isPhysical = true →
        (Arithmetic.isNaN (f.quantity c n) || Arithmetic.less (f.quantity c n) (ofNat 0)) = false :=
      fun physical => (Place.unsigned_quantity c adjustable physical n).not_refused
    cases f with
    | setpoint | limit =>
      rw [recode, Scale.unipolar_encode_value, sound rfl]
      exact ⟨_, rfl⟩
    | proportional | integral | relockStep =>
      rw [recode, Gain.encode_value, sound rfl]
      exact ⟨_, rfl⟩
    | relockLow | relockHigh =>
      rw [recode, Span.encodeInput_value, (Bool.or_eq_false_iff.mp (sound rfl)).1]
      exact ⟨_, rfl⟩
    | slowOutput =>
      rw [recode, Span.encodeOutput_value, sound rfl]
      exact ⟨_, rfl⟩
    | derivative | relockPin => exact ⟨n, rfl⟩
    | features | slowInput | fastInput | fastOutput => cases adjustable

end Register

/-- Whatever the words and the two calibrations, a capture succeeds and is accepted as a whole, and the
reading of a slow output is accepted for that output. -/
theorem readings_are_accepted {i j : Instrument Binary64} (hi : i.FullSize) (hj : j.FullSize) :
    (∃ (set : ParameterSet Binary64) (after : Instrument Binary64),
      (ParameterSet.capture.perform i).value = (.ok set, i) ∧
      (set.apply.perform j).value = (.ok (), after)) ∧
    ∀ k : Fin 4, ∃ (volts : Binary64) (after : Instrument Binary64),
      ((Action.pinValue (.output k)).perform i).value = (.ok volts, i) ∧
      ((Action.setPinValue (.output k) volts).perform j).value = (.ok (), after) := by
  choose count accepted using Place.recode_accepted i.calibration j.calibration
  constructor
  · exact ⟨i.parameters, _, ParameterSet.capture_value hi,
      Instrument.apply_parameters hj fun p _ => accepted p (i.value p)⟩
  · intro k
    have stores : ((Setter.pinValue (.output k) (i.quantity (.slowOutput k))).stores
        j.calibration).run.value = .ok [(.number (.slowOutput k), _)] :=
      Setter.stored_value (accepted (.number (.slowOutput k)) (i.value (.number (.slowOutput k)))) _ _
    have performed := congrArg Logged.value
      (Setter.perform_eq (.pinValue (.output k) (i.quantity (.slowOutput k))) hj)
    rw [Logged.map_value, stores] at performed
    exact ⟨_, _, Action.pinValue_value hi k, performed⟩

/-- A capture under gains and offsets that are no use, put back under others, and the last slow output at a
count past its span: every word has all its bits set, reserved ones among them. -/
theorem readings_are_accepted_across_records :
    let captured : Correction Binary64 := ⟨.nan false, .ofRat (-3)⟩
    let applied : Correction Binary64 := ⟨.ofRat (1 / 3), .infinite true⟩
    let full (b : Block) : Window := ⟨b.name, .held (.replicate (b.size / wordSize) 0xFFFFFFFF)⟩
    let on (c : Calibration Binary64) : Instrument Binary64 :=
      ⟨full .pid, full .limit, full .analog, .zero, c⟩
    let i := on ⟨⟨captured, applied⟩, ⟨applied, captured⟩⟩
    let j := on ⟨⟨applied, captured⟩, ⟨captured, applied⟩⟩
    i.FullSize ∧ j.FullSize ∧ i.value (.number (.slowOutput 3)) = 255 ∧
      (∃ (set : ParameterSet Binary64) (after : Instrument Binary64),
        (ParameterSet.capture.perform i).value = (.ok set, i) ∧
        (set.apply.perform j).value = (.ok (), after)) ∧
      ∃ (volts : Binary64) (after : Instrument Binary64),
        ((Action.pinValue (.output 3)).perform i).value = (.ok volts, i) ∧
        ((Action.setPinValue (.output 3) volts).perform j).value = (.ok (), after) := by
  intro captured applied full on i j
  have hi : i.FullSize := by
    intro b
    cases b <;> rfl
  have hj : j.FullSize := by
    intro b
    cases b <;> rfl
  obtain ⟨sets, pins⟩ := readings_are_accepted hi hj
  exact ⟨hi, hj, by decide +kernel, sets, pins 3⟩

end LockServo

import LockServo.Proofs.Conversion.RoundTrip
import LockServo.Proofs.ParameterSet.Restore

/-!
# Counts coded anew

What becomes of a parameter's count that is read and written back in an accurate number system. A place
that no correction enters gets its count back; the other places go through one correction twice.
-/

namespace LockServo

open Arithmetic Accurate Register

variable {ν : Type} [Arithmetic ν]

def Register.Place.correction? (c : Calibration ν) : Place → Option (Correction ν)
  | .number (.setpoint l) _ => some (c.input.get l.input)
  | .number (.limit d _) _ => some (c.output.get d)
  | _ => none

variable [Accurate ν]

theorem Gain.encode_decode {q : ℚ} (low : 2 ≤ q) (high : q ≤ 2 ^ 12) (quantity : Quantity)
    {n : UInt32} (masked : n &&& 0xFFFFFF = n) :
    (encode quantity (ofRat q : ν) 0xFFFFFF (decode (ofRat q) n)).run.value = .ok n := by
  rw [run_encode_decode_ofRat low high (toNat_le_of_masked masked)]
  rfl

theorem Span.encode_voltage {n : UInt32} (masked : n &&& 0xFFF = n) :
    (encodeInput (slowInput.voltage n : ν)).run.value = .ok n :=
  encodeInput_voltage (toNat_le_of_masked masked)

namespace Register.Place

theorem recode_of_no_correction (c c' : Calibration ν) {p : Place} (parameter : p.isParameter = true)
    (plain : p.correction? c = none) {n : UInt32} (masked : n &&& p.mask = n) :
    (p.recode c c' n).run.value = .ok n := by
  cases p with
  | switch l f => rfl
  | number f adjustable =>
    cases f with
    | setpoint | limit => cases plain
    | proportional => exact Gain.encode_decode (by decide +kernel) (by decide +kernel) _ masked
    | integral => exact Gain.encode_decode (by decide +kernel) (by decide +kernel) _ masked
    | relockStep => exact Gain.encode_decode (by decide +kernel) (by decide +kernel) _ masked
    | relockLow | relockHigh => exact Span.encode_voltage masked
    | derivative | relockPin => rfl
    | slowOutput => cases parameter
    | features | slowInput | fastInput | fastOutput => cases adjustable

theorem recode_of_correction {c : Calibration ν} {k : Correction ν} {p : Place}
    (corrected : p.correction? c = some k) {n : UInt32} {v : ℚ}
    (hv : toRat? (Scale.unipolar.volts k (ofNat 0) n) = some v) :
    (p.recode c c n).run.value =
      .ok (Scale.unipolar.code k (ofNat 0)
        (clampNonNegative (Scale.unipolar.volts k (ofNat 0) n))) := by
  have accepted := not_refused (toRat?_clampNonNegative hv) (le_max_left 0 v)
  cases p with
  | switch l f => cases corrected
  | number f adjustable =>
    cases f with
    | setpoint | limit =>
      obtain rfl := Option.some.inj corrected
      rw [recode, Field.quantity, Scale.unipolar_decode_value, Scale.unipolar_encode_value, accepted]
      rfl
    | _ => cases corrected

omit [Arithmetic ν] [Accurate ν] in
theorem mask_of_correction {c : Calibration ν} {k : Correction ν} {p : Place}
    (corrected : p.correction? c = some k) : p.mask = 0x3FFF := by
  cases p with
  | switch l f => cases corrected
  | number f adjustable => cases f <;> first | rfl | cases corrected

end Register.Place

end LockServo

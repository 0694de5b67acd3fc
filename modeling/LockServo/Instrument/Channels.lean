import LockServo.Conversion.Span
import LockServo.Instrument.Basic

/-!
# Limits, pins and fast readings

The clamp of each fast output, the slow analog pins, and what the fast converters last saw. Limits and
fast outputs go through the output's calibration, fast inputs through the input's. Nothing orders the two
limits of an output.
-/

namespace LockServo.Action

open Arithmetic Register

variable {ν : Type} [Arithmetic ν]

/-! ## Limits -/

def setLimit (c : Channel) (b : Bound) (volts : ν) : Action ν Unit := do
  let correction := (← calibration).output.get c
  let count ← ofConversion (Scale.unipolar.encode correction (ofNat 0) volts)
  ofReporting (report (.setting .limit))
  writeField (.limit c b) count

def limit (c : Channel) (b : Bound) : Action ν ν := do
  let count ← readField (.limit c b)
  let correction := (← calibration).output.get c
  ofReporting (Scale.unipolar.decode correction (ofNat 0) count)

/-! ## Slow pins -/

def pinValue : Pin → Action ν ν
  | .input i => return Span.slowInput.voltage (← readField (.slowInput i))
  | .output i => return Span.slowOutput.voltage (← readField (.slowOutput i))

/-- Drives an output pin; an input is refused whatever the voltage. -/
def setPinValue (p : Pin) (volts : ν) : Action ν Unit :=
  match p with
  | .input _ => throw (.outOfRange ⟨.outputPin, p.code⟩)
  | .output i => do
    let count ← ofConversion (Span.encodeOutput volts)
    ofReporting (report (.setting .analogOutput))
    writeField (.slowOutput i) count

def resetPins : Action ν Unit := do
  Pin.outputs.forM fun p => writeField (.slowOutput p.index) 0
  ofReporting (report .outputsReset)

/-! ## Fast converters -/

def inputVoltage (c : Channel) : Action ν ν := do
  let word ← readField (.fastInput c)
  let correction := (← calibration).input.get c
  ofReporting (Scale.bipolar.decode correction (ofNat 0) word)

def outputVoltage (c : Channel) : Action ν ν := do
  let word ← readField (.fastOutput c)
  let correction := (← calibration).output.get c
  ofReporting (Scale.bipolar.decode correction (ofNat 0) word)

/-! ## Calibration in force -/

def exchangeCalibration (record : Calibration ν) : Action ν (Calibration ν) := do
  let previous ← calibration
  modify ({ · with calibration := record })
  return previous

def reloadCalibration (record : Calibration ν) : Action ν Unit := do
  let _ ← exchangeCalibration record
  ofReporting (report .calibrationReloaded)

end LockServo.Action

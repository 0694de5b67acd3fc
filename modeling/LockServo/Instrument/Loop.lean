import LockServo.Conversion.Gain
import LockServo.Conversion.Span
import LockServo.Instrument.Basic

/-!
# Loop parameters

Setpoint, gains, features and relock values of one loop. The setpoint goes through the calibration of
the loop's input; gains, rates and relock bounds go through none. Nothing orders the relock bounds.
-/

namespace LockServo.Action

open Arithmetic Register

variable {ν : Type} [Arithmetic ν]

/-! ## Setpoint -/

def setSetpoint (l : Loop) (volts : ν) : Action ν Unit := do
  let correction := (← calibration).input.get l.input
  let count ← ofConversion (Scale.unipolar.encode correction (ofNat 0) volts)
  ofReporting (report (.setting .setpoint))
  writeField (.setpoint l) count

def setpoint (l : Loop) : Action ν ν := do
  let count ← readField (.setpoint l)
  let correction := (← calibration).input.get l.input
  ofReporting (Scale.unipolar.decode correction (ofNat 0) count)

/-! ## Gains -/

def setGain (quantity : Quantity) (factor : Rat) (parameter : Parameter) (f : Field) (value : ν) :
    Action ν Unit := do
  let count ← ofConversion (Gain.encode quantity (ofRat factor) f.mask value)
  ofReporting (report (.setting parameter))
  writeField f count

def gain (factor : Rat) (f : Field) : Action ν ν :=
  return Gain.decode (ofRat factor) (← readField f)

def setProportional (l : Loop) (value : ν) : Action ν Unit :=
  setGain .proportional Gain.proportionalFactor .proportional (.proportional l) value

def proportional (l : Loop) : Action ν ν := gain Gain.proportionalFactor (.proportional l)

def setIntegral (l : Loop) (value : ν) : Action ν Unit :=
  setGain .integral Gain.integralFactor .integral (.integral l) value

def integral (l : Loop) : Action ν ν := gain Gain.integralFactor (.integral l)

/-- The derivative gain is a raw count; what does not fit its mask is dropped. -/
def setDerivative (l : Loop) (count : UInt32) : Action ν Unit := do
  ofReporting (report (.setting .derivative))
  writeField (.derivative l) count

def derivative (l : Loop) : Action ν UInt32 := readField (.derivative l)

/-! ## Features -/

/-- The shared word with the features of all loops. -/
def featureWord : Action ν UInt32 := readField .features

def setFeature (l : Loop) (f : Feature) (on : Bool) : Action ν Unit := do
  ofReporting (report (.setting .feature))
  update Field.features.block fun v =>
    let change := if on then v.setBits else v.clearBits
    change Field.features.offset (featureBit l f) Field.features.mask

def feature (l : Loop) (f : Feature) : Action ν Bool :=
  query Field.features.block
    (·.bitsSet Field.features.offset (featureBit l f) Field.features.mask)

def features (l : Loop) : Action ν FeatureSet := do
  let word ← featureWord
  return .ofList (Feature.all.filter fun f => word &&& featureBit l f != 0)

def featureMask (l : Loop) (pick : Feature → Bool) : UInt32 :=
  (Feature.all.filter pick).foldl (fun bits f => bits ||| featureBit l f) 0

/-- All five features of a loop at once; bits of the set that belong to no feature are ignored. -/
def setFeatures (l : Loop) (s : FeatureSet) : Action ν Unit := do
  let on := featureMask l s.contains
  let off := featureMask l (!s.contains ·)
  ofReporting (report (.setting .features))
  update Field.features.block fun v =>
    return (← v.modify Field.features.offset fun word => (word &&& ~~~off) ||| on).2

/-! ## Relock -/

def setRelockBound (parameter : Parameter) (f : Field) (volts : ν) : Action ν Unit := do
  let count ← ofConversion (Span.encodeInput volts)
  ofReporting (report (.setting parameter))
  writeField f count

def relockBound (f : Field) : Action ν ν := return Span.slowInput.voltage (← readField f)

def setRelockLow (l : Loop) (volts : ν) : Action ν Unit :=
  setRelockBound .relockLow (.relockLow l) volts

def relockLow (l : Loop) : Action ν ν := relockBound (.relockLow l)

def setRelockHigh (l : Loop) (volts : ν) : Action ν Unit :=
  setRelockBound .relockHigh (.relockHigh l) volts

def relockHigh (l : Loop) : Action ν ν := relockBound (.relockHigh l)

/-- The sweep rate in volts per second. -/
def setRelockStep (l : Loop) (rate : ν) : Action ν Unit :=
  setGain .relockStep Gain.stepFactor .relockStep (.relockStep l) rate

def relockStep (l : Loop) : Action ν ν := gain Gain.stepFactor (.relockStep l)

def setRelockPin (l : Loop) (p : Pin) : Action ν Unit := do
  match p with
  | .output _ => throw (.outOfRange ⟨.relockPin, p.code⟩)
  | .input i =>
    ofReporting (report (.setting .relockPin))
    writeField (.relockPin l) (UInt32.ofNat i)

def setRelockCode (l : Loop) (code : Nat) : Action ν Unit := do
  setRelockPin l (← ofRange (Pin.ofCode code))

def relockPin (l : Loop) : Action ν Pin := do
  let i ← readField (.relockPin l)
  ofRange (Pin.ofCode ((Pin.input 0).code + i.toNat))

end LockServo.Action

import LockServo.Document.Decode
import LockServo.Document.Load
import LockServo.ParameterSet.Basic

/-!
# Parameter sets as documents

The fields of a set in order, and back. A pin is written by its name, a set of features by its text.
-/

namespace LockServo

open Value (fields? required optional)

def Channel.toValue (c : Channel) : Value := .integer c.number

def Channel.ofValue? (v : Value) : Option Channel := (v.natural? (1 <<< 8)).bind Channel.ofNumber?

def Loop.toValue (l : Loop) : Value :=
  .table [("input", l.input.toValue), ("output", l.output.toValue)]

def Loop.ofValue? (v : Value) : Option Loop := do
  match ← v.fields? ["input", "output"] with
  | [input, output] =>
    return ⟨← required Channel.ofValue? input, ← required Channel.ofValue? output⟩
  | _ => none

def FeatureSet.ofValue? (v : Value) : Option FeatureSet := v.string?.bind FeatureSet.ofText?

def Pin.ofValue? (v : Value) : Option Pin := v.variant?.bind Pin.ofName?

def word? (v : Value) : Option UInt32 := (v.natural? (1 <<< 32)).map UInt32.ofNat

namespace LoopParameters

def toValue (p : LoopParameters Binary64) : Value :=
  .table [
    ("id", p.loop.toValue),
    ("setpoint", .float p.setpoint),
    ("kp", .float p.proportional),
    ("ki", .float p.integral),
    ("kd", .integer p.derivative.toNat),
    ("features", .string p.features.toText),
    ("relock_min", .float p.relockLow),
    ("relock_max", .float p.relockHigh),
    ("relock_stepsize", .float p.relockStep),
    ("relock_input", .string p.relockPin.name)]

def ofValue? (v : Value) : Option (LoopParameters Binary64) := do
  let names := ["id", "setpoint", "kp", "ki", "kd", "features", "relock_min", "relock_max",
    "relock_stepsize", "relock_input"]
  match ← v.fields? names with
  | [id, setpoint, kp, ki, kd, features, low, high, step, pin] =>
    return {
      loop := ← required Loop.ofValue? id
      setpoint := ← required Value.float? setpoint
      proportional := ← required Value.float? kp
      integral := ← required Value.float? ki
      derivative := ← required word? kd
      features := ← optional .empty FeatureSet.ofValue? features
      relockLow := ← required Value.float? low
      relockHigh := ← required Value.float? high
      relockStep := ← required Value.float? step
      relockPin := ← required Pin.ofValue? pin }
  | _ => none

end LoopParameters

namespace LimitParameters

def toValue (p : LimitParameters Binary64) : Value :=
  .table [("channel", p.channel.toValue), ("min", .float p.low), ("max", .float p.high)]

def ofValue? (v : Value) : Option (LimitParameters Binary64) := do
  match ← v.fields? ["channel", "min", "max"] with
  | [channel, low, high] =>
    return {
      channel := ← required Channel.ofValue? channel
      low := ← required Value.float? low
      high := ← required Value.float? high }
  | _ => none

end LimitParameters

namespace ParameterSet

def toTable (p : ParameterSet Binary64) : Table :=
  [("loops", .array (p.loops.map LoopParameters.toValue)),
   ("limits", .array (p.limits.map LimitParameters.toValue))]

def ofTable? (t : Table) : Option (ParameterSet Binary64) := do
  match ← Value.fields? ["loops", "limits"] (.table t) with
  | [loops, limits] =>
    return {
      loops := ← optional [] (Value.list? LoopParameters.ofValue?) loops
      limits := ← optional [] (Value.list? LimitParameters.ofValue?) limits }
  | _ => none

def toText (p : ParameterSet Binary64) : String := Toml.render p.toTable

def save (target : Except FileCause Unit) (p : ParameterSet Binary64) :
    Reporting (Except DocumentFault String) := do
  match Toml.encodeFile target p.toText with
  | .error fault => return .error fault
  | .ok text =>
    report .parametersSaved
    return .ok text

def load (file : Except FileCause ByteArray) :
    Reporting (Except DocumentFault (ParameterSet Binary64)) := do
  match Toml.decodeFile ofTable? file with
  | .error fault => return .error fault
  | .ok p =>
    report .parametersLoaded
    return .ok p

end ParameterSet

end LockServo

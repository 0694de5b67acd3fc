import LockServo.Document.Decode
import LockServo.Settings.Basic

/-!
# Settings as documents

The fields of the settings in three tables, and back. All of it may be left out but the service's name in
its table; a table that the settings do not have is refused.
-/

namespace LockServo

open Value (fields? required optional)

namespace Severity

def all : List Severity := [.trace, .debug, .info, .warn, .error]

def key : Severity → String
  | .trace => "trace"
  | .debug => "debug"
  | .info => "info"
  | .warn => "warn"
  | .error => "error"

def ofValue? (v : Value) : Option Severity :=
  v.variant?.bind fun name => all.find? (·.key == name)

end Severity

namespace Correction

def toValue (c : Correction Binary64) : Value :=
  .table [("gain", .float c.gain), ("offset", .float c.offset)]

def ofValue? (v : Value) : Option (Correction Binary64) := do
  match ← v.fields? ["gain", "offset"] with
  | [gain, offset] =>
    return {
      gain := ← optional ideal.gain Value.float? gain
      offset := ← optional ideal.offset Value.float? offset }
  | _ => none

end Correction

namespace Calibration

def sideToValue (side : PerChannel (Correction Binary64)) : Value :=
  .array (side.toList.map Correction.toValue)

def sideOfValue? (v : Value) : Option (PerChannel (Correction Binary64)) :=
  (v.pair? Correction.ofValue?).map fun (one, two) => ⟨one, two⟩

def toValue (c : Calibration Binary64) : Value :=
  .table [("input", sideToValue c.input), ("output", sideToValue c.output)]

def ofValue? (v : Value) : Option (Calibration Binary64) := do
  match ← v.fields? ["input", "output"] with
  | [input, output] =>
    return {
      input := ← optional ideal.input sideOfValue? input
      output := ← optional ideal.output sideOfValue? output }
  | _ => none

end Calibration

namespace Settings

def toTable (s : Settings) : Table :=
  [("shared", .table [("log_level", .string s.severity.key), ("service_name", .string s.serviceName)]),
   ("mapping", .table [("device", .string s.device), ("simulate", .boolean s.simulate)]),
   ("calibration", s.calibration.toValue)]

def sharedOfValue? (v : Value) : Option (Severity × String) := do
  match ← v.fields? ["log_level", "service_name"] with
  | [severity, name] =>
    return (← optional .info Severity.ofValue? severity, ← required Value.string? name)
  | _ => none

def mappingOfValue? (v : Value) : Option (String × Bool) := do
  match ← v.fields? ["device", "simulate"] with
  | [device, simulate] =>
    return (← optional "/dev/mem" Value.string? device, ← optional false Value.boolean? simulate)
  | _ => none

def ofTable? (t : Table) : Option Settings := do
  let names := ["shared", "mapping", "calibration"]
  if t.all fun e => names.contains e.1 then
    let (severity, serviceName) ← optional (.info, "lockbox") sharedOfValue? (t.find? "shared")
    let (device, simulate) ← optional ("/dev/mem", false) mappingOfValue? (t.find? "mapping")
    let calibration ← optional .ideal Calibration.ofValue? (t.find? "calibration")
    return { severity, serviceName, device, simulate, calibration }
  else none

def toText (s : Settings) : String := Toml.render s.toTable

def save (target : Except FileCause Unit) (s : Settings) : Except DocumentFault String :=
  Toml.encodeFile target s.toText

def load (file : Except FileCause ByteArray) : Except DocumentFault Settings :=
  Toml.decodeFile ofTable? file

end Settings

end LockServo

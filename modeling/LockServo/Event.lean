import LockServo.Logged

/-!
# Log events

What the instrument and its command line report while they work. A log is the severities and messages of
its events, in order; the values that are logged beside a message are left out.
-/

namespace LockServo

inductive Severity where
  | trace
  | debug
  | info
  | warn
  | error
  deriving DecidableEq

namespace Severity

def rank : Severity → Nat
  | .trace => 0
  | .debug => 1
  | .info => 2
  | .warn => 3
  | .error => 4

def label : Severity → String
  | .trace => "TRACE"
  | .debug => "DEBUG"
  | .info => "INFO"
  | .warn => "WARN"
  | .error => "ERROR"

def passes (threshold severity : Severity) : Bool := threshold.rank ≤ severity.rank

end Severity

inductive Parameter where
  | setpoint
  | proportional
  | integral
  | derivative
  | feature
  | features
  | relockLow
  | relockHigh
  | relockStep
  | relockPin
  | limit
  | analogOutput
  deriving DecidableEq

def Parameter.label : Parameter → String
  | .setpoint => "setpoint"
  | .proportional => "kp"
  | .integral => "ki"
  | .derivative => "kd"
  | .feature => "feature"
  | .features => "features"
  | .relockLow => "relock min"
  | .relockHigh => "relock max"
  | .relockStep => "relock stepsize"
  | .relockPin => "relock input"
  | .limit => "limit"
  | .analogOutput => "analog output"

inductive Event where
  | unusableGain
  | unusableOffset
  | voltageAbove
  | voltageBelow
  | gainAbove
  | absoluteOutside
  | analogOutputAbove
  | setting (parameter : Parameter)
  | mappingBlock
  | blockMapped
  | blockUnmapped
  | instrumentMapped
  | instrumentSimulated
  | outputsReset
  | calibrationReloaded
  | parametersApplied
  | parametersSaved
  | parametersLoaded
  | starting (version : String)
  | settingsLoaded (path : String)
  | settingsMissing (path : String)
  | simulationForced
  | failed (cause : String)
  deriving DecidableEq

namespace Event

def severity : Event → Severity
  | .unusableGain | .unusableOffset | .voltageAbove | .voltageBelow | .gainAbove
  | .absoluteOutside | .analogOutputAbove | .settingsMissing _ => .warn
  | .setting _ | .mappingBlock => .debug
  | .failed _ => .error
  | _ => .info

def message : Event → String
  | .unusableGain => "unusable calibration gain, using 1.0"
  | .unusableOffset => "unusable calibration offset, using 0.0"
  | .voltageAbove => "voltage above field range, saturating"
  | .voltageBelow => "voltage below field range, saturating"
  | .gainAbove => "value above field range, saturating"
  | .absoluteOutside => "absolute voltage outside 0-7 V, saturating"
  | .analogOutputAbove => "analog output above 1.8 V, saturating"
  | .setting parameter => "set " ++ parameter.label
  | .mappingBlock => "mapping register block"
  | .blockMapped => "register block mapped"
  | .blockUnmapped => "register block unmapped"
  | .instrumentMapped => "lockbox register blocks mapped"
  | .instrumentSimulated => "lockbox running on simulated register blocks"
  | .outputsReset => "analog outputs reset"
  | .calibrationReloaded => "calibration reloaded"
  | .parametersApplied => "snapshot applied"
  | .parametersSaved => "snapshot saved"
  | .parametersLoaded => "snapshot loaded"
  | .starting version => "Lockbox v" ++ version ++ " starting..."
  | .settingsLoaded path => "Loaded configuration from \"" ++ path ++ "\""
  | .settingsMissing path => "No configuration at \"" ++ path ++ "\", using defaults"
  | .simulationForced => "Simulation mode enabled"
  | .failed cause => "lockbox failed: " ++ cause

/-- Events of a conversion whose value did not fit its field. -/
def isSaturation : Event → Bool
  | .voltageAbove | .voltageBelow | .gainAbove | .absoluteOutside | .analogOutputAbove => true
  | _ => false

end Event

abbrev Reporting := Logged Event

def report (event : Event) : Reporting Unit := Logged.emit event

@[simp] theorem report_events (event : Event) : (report event).events = [event] := rfl

end LockServo

import LockServo.Command.Arguments
import LockServo.Document.Json
import LockServo.ParameterSet.Document
import LockServo.Settings.Document

/-!
# Running a command

One run reads the settings, brings the instrument up, does one thing with it and lets it go. What it finds
in files is given to it by path, and what it leaves behind is its outcome; whatever the run comes to, the
registers of a memory device stay as they were last written.
-/

namespace LockServo

open Register

def version : String := "0.1.0"

def usage : String :=
  String.intercalate "\n" [
    "Usage: lockbox [OPTIONS] [COMMAND]",
    "",
    "Commands:",
    "  status       Print every loop and limit parameter (default)",
    "  save <FILE>  Capture all parameters into a TOML file",
    "  load <FILE>  Apply all parameters from a TOML file",
    "  pins         Print slow analog pin values and fast channel voltages",
    "  help         Print this text",
    "",
    "Options:",
    "  -c, --config <CONFIG>  Path to the settings file [default: " ++ Settings.defaultPath ++ "]",
    "  -s, --simulate         Use in-memory register blocks instead of the memory device",
    "  -v, --verbose          Enable verbose logging",
    "      --json             Print reports and the log as JSON",
    "  -h, --help             Print this text",
    "  -V, --version          Print the version",
    ""]

inductive Failure where
  | document (fault : DocumentFault)
  | instrument (fault : Fault Binary64)
  deriving DecidableEq

def Failure.message : Failure → String
  | .document fault => fault.message
  | .instrument fault => fault.message

structure Surroundings where
  read : String → Except FileCause ByteArray
  memory : String → Except FileCause Memory
  writable : String → Except FileCause Unit

/-- What a command comes to besides the registers it wrote. -/
inductive Product where
  | nothing
  | report (document : Table)
  | file (path text : String)

/-! ## Commands -/

def pinReport : Action Binary64 Table := do
  let pins ← Pin.all.mapM fun p => do
    let volts ← Action.pinValue p
    return Value.table [("pin", .string p.name), ("volts", .float volts)]
  let fast ← Channel.all.mapM fun c => do
    let input ← Action.inputVoltage c
    let output ← Action.outputVoltage c
    return Value.table
      [("channel", c.toValue), ("input_volts", .float input), ("output_volts", .float output)]
  return [("pins", .array pins), ("fast", .array fast)]

namespace Command

abbrev Work (α : Type) := ExceptT Failure (StateT (Instrument Binary64) Reporting) α

namespace Work

variable {α : Type}

def ofAction (action : Action Binary64 α) : Work α :=
  ExceptT.mk do
    match ← ExceptT.run action with
    | .ok a => return .ok a
    | .error fault => return .error (.instrument fault)

def ofDocument (x : Reporting (Except DocumentFault α)) : Work α :=
  ExceptT.mk do
    match ← liftM (m := Reporting) x with
    | .ok a => return .ok a
    | .error fault => return .error (.document fault)

end Work

def work (s : Surroundings) : Command → Work Product
  | .status => return .report (← Work.ofAction ParameterSet.capture).toTable
  | .save path => do
    let p ← Work.ofAction ParameterSet.capture
    return .file path (← Work.ofDocument (p.save (s.writable path)))
  | .load path => do
    let p ← Work.ofDocument (ParameterSet.load (s.read path))
    Work.ofAction p.apply
    return .nothing
  | .pins => return .report (← Work.ofAction pinReport)

end Command

/-! ## Runs -/

structure Outcome where
  exitCode : Nat
  /-- What is printed on the standard output. -/
  output : String := ""
  failure : Option Failure := none
  /-- A file to be written, by its path. -/
  file : Option (String × String) := none
  /-- The memory behind a device, by the device's path. -/
  memory : Option (String × Memory) := none

namespace Outcome

def failed (failure : Failure) : Outcome := { exitCode := 1, failure := some failure }

def ofProduct (json : Bool) : Product → Outcome
  | .nothing => { exitCode := 0 }
  | .report document =>
    { exitCode := 0
      output := (if json then Json.render 0 (.table document) else Toml.render document) ++ "\n" }
  | .file path text => { exitCode := 0, file := some (path, text) }

end Outcome

namespace Options

/-- The settings in effect: missing ones are the default, and simulation may be forced. -/
def settings (o : Options) (file : Except FileCause ByteArray) :
    Reporting (Except DocumentFault Settings) := do
  match Settings.load file with
  | .ok s =>
    report (.settingsLoaded o.config)
    force s
  | .error .notFound =>
    report (.settingsMissing o.config)
    force {}
  | .error fault => return .error fault
where
  force (s : Settings) : Reporting (Except DocumentFault Settings) := do
    if o.simulate then
      report .simulationForced
    let s := { s with simulate := o.simulate || s.simulate }
    return s.validate.map fun _ => s

/-- The least severity that is logged: the settings say, unless more is asked for. -/
def threshold (o : Options) (file : Except FileCause ByteArray) : Severity :=
  if o.verbose then .debug
  else
    match Settings.load file with
    | .ok s => s.severity
    | .error _ => .info

def attempt (o : Options) (command : Command) (s : Surroundings) : Reporting Outcome := do
  match ← o.settings (s.read o.config) with
  | .error fault => return .failed (.document fault)
  | .ok settings =>
    match ← settings.start (s.memory settings.device) with
    | .error fault => return .failed (.instrument fault)
    | .ok instrument =>
      let (result, instrument) ← (command.work s).run.run instrument
      instrument.close
      let memory := if settings.simulate then none else some (settings.device, instrument.memory)
      match result with
      | .ok product => return { Outcome.ofProduct o.json product with memory }
      | .error failure => return { Outcome.failed failure with memory }

def run (o : Options) (command : Command) (s : Surroundings) : Reporting Outcome :=
  let unfiltered : Reporting Outcome := do
    report (.starting version)
    let outcome ← o.attempt command s
    if let some failure := outcome.failure then
      report (.failed failure.message)
    return outcome
  let threshold := o.threshold (s.read o.config)
  ⟨unfiltered.value, unfiltered.events.filter (threshold.passes ·.severity)⟩

end Options

/-- What a command line comes to; a misuse has an exit code of its own. -/
def Request.perform (s : Surroundings) : Request → Reporting Outcome
  | .run options command => options.run command s
  | .version => return { exitCode := 0, output := "lockbox " ++ LockServo.version ++ "\n" }
  | .help => return { exitCode := 0, output := LockServo.usage }
  | .misuse => return { exitCode := 2 }

end LockServo

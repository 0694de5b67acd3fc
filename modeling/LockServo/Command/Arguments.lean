import LockServo.Settings.Basic

/-!
# Arguments

What the words of a command line ask for. Options stand before the command and at most once each. A
request for help or for the version is granted at its word, so only a misuse before that word counts.
-/

namespace LockServo

inductive Command where
  | status
  | save (path : String)
  | load (path : String)
  | pins
  deriving DecidableEq

structure Options where
  config : String := Settings.defaultPath
  simulate : Bool := false
  verbose : Bool := false
  json : Bool := false
  deriving DecidableEq

inductive Request where
  | run (options : Options) (command : Command)
  | version
  | help
  | misuse
  deriving DecidableEq

namespace Arguments

/-! ## Names -/

inductive Switch where
  | config
  | simulate
  | verbose
  | json
  | version
  | help
  deriving DecidableEq

namespace Switch

def all : List Switch := [.config, .simulate, .verbose, .json, .version, .help]

def name : Switch → String
  | .config => "config"
  | .simulate => "simulate"
  | .verbose => "verbose"
  | .json => "json"
  | .version => "version"
  | .help => "help"

def letter? : Switch → Option Char
  | .config => some 'c'
  | .simulate => some 's'
  | .verbose => some 'v'
  | .json => none
  | .version => some 'V'
  | .help => some 'h'

def ofName? (s : List Char) : Option Switch := all.find? (·.name.toList == s)

def ofLetter? (c : Char) : Option Switch := all.find? (·.letter? == some c)

end Switch

inductive Verb where
  | status
  | save
  | load
  | pins
  deriving DecidableEq

namespace Verb

def all : List Verb := [.status, .save, .load, .pins]

def name : Verb → String
  | .status => "status"
  | .save => "save"
  | .load => "load"
  | .pins => "pins"

def ofName? (s : String) : Option Verb := all.find? (·.name == s)

def takesPath : Verb → Bool
  | .save | .load => true
  | .status | .pins => false

def command? : Verb → Option String → Option Command
  | .status, none => some .status
  | .pins, none => some .pins
  | .save, some path => some (.save path)
  | .load, some path => some (.load path)
  | _, _ => none

end Verb

def helpName : String := "help"

/-! ## Reading -/

inductive Place where
  | option
  | configPath
  /-- Nothing, behind the mark that ends the options. -/
  | ended
  /-- An operand of a command, where a dash means nothing once the options have ended. -/
  | operand (verb : Verb) (path : Option String) (ended : Bool)
  /-- The command to be helped with, unless it has been named. -/
  | topic (named : Bool)

structure Reading where
  config : Option String := none
  simulate : Bool := false
  verbose : Bool := false
  json : Bool := false
  place : Place := .option

namespace Reading

def setConfig (r : Reading) (path : String) : Except Request Reading :=
  if path.isEmpty || r.config.isSome then .error .misuse
  else .ok { r with config := some path, place := .option }

def turnOn (r : Reading) : Switch → Except Request Reading
  | .config => .ok { r with place := .configPath }
  | .simulate => if r.simulate then .error .misuse else .ok { r with simulate := true }
  | .verbose => if r.verbose then .error .misuse else .ok { r with verbose := true }
  | .json => if r.json then .error .misuse else .ok { r with json := true }
  | .version => .error .version
  | .help => .error .help

/-- An option by its name, which may have a value behind an equals sign. -/
def long (r : Reading) (word : List Char) : Except Request Reading :=
  match Switch.ofName? (word.takeWhile (· != '=')), word.dropWhile (· != '=') with
  | some .config, _ :: path => r.setConfig (String.ofList path)
  | some switch, [] => r.turnOn switch
  | _, _ => .error .misuse

/-- Options by their letters; the rest behind one that takes a value is its value. -/
def short (r : Reading) : List Char → Except Request Reading
  | [] => .ok r
  | c :: rest =>
    match Switch.ofLetter? c, rest with
    | some .config, '=' :: path => r.setConfig (String.ofList path)
    | some .config, p :: path => r.setConfig (String.ofList (p :: path))
    | some switch, rest => do
      let r ← r.turnOn switch
      r.short rest
    | none, _ => .error .misuse

def operand (r : Reading) (verb : Verb) (path : Option String) (ended : Bool) (word : String) :
    Except Request Reading :=
  if verb.takesPath && path.isNone && !word.isEmpty then
    .ok { r with place := .operand verb (some word) ended }
  else .error .misuse

def step (r : Reading) (word : String) : Except Request Reading :=
  match r.place, word.toList with
  | .option, ['-', '-'] => .ok { r with place := .ended }
  | .option, '-' :: '-' :: name => r.long name
  | .option, '-' :: c :: letters => r.short (c :: letters)
  | .option, _ =>
    match Verb.ofName? word with
    | some verb => .ok { r with place := .operand verb none false }
    | none => if word = helpName then .ok { r with place := .topic false } else .error .misuse
  | .configPath, '-' :: _ :: _ => .error .misuse
  | .configPath, _ => r.setConfig word
  | .ended, _ => .error .misuse
  | .operand verb path true, _ => r.operand verb path true word
  | .operand verb path false, ['-', '-'] => .ok { r with place := .operand verb path true }
  | .operand _ _ false, '-' :: '-' :: name =>
    .error (if name = Switch.help.name.toList then .help else .misuse)
  | .operand _ _ false, '-' :: c :: _ =>
    .error (if Switch.help.letter? = some c then .help else .misuse)
  | .operand verb path false, _ => r.operand verb path false word
  | .topic named, _ =>
    if !named && ((Verb.ofName? word).isSome || word = helpName) then
      .ok { r with place := .topic true }
    else .error .misuse

def options (r : Reading) : Options :=
  ⟨r.config.getD Settings.defaultPath, r.simulate, r.verbose, r.json⟩

/-- What a reading asks for when no word is left; without a command, the status. -/
def request (r : Reading) : Request :=
  match r.place with
  | .option | .ended => .run r.options .status
  | .configPath => .misuse
  | .operand verb path _ =>
    match verb.command? path with
    | some command => .run r.options command
    | none => .misuse
  | .topic _ => .help

end Reading

end Arguments

def Request.ofArguments (words : List String) : Request :=
  match words.foldlM Arguments.Reading.step {} with
  | .ok reading => reading.request
  | .error request => request

end LockServo

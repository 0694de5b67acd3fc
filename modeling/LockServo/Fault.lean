import LockServo.Decimal.Text

/-!
# Faults

Why an operation was refused. Each fault is its cause; the wording is in one function.
-/

namespace LockServo

inductive Subject where
  | channel
  | inputChannel
  | outputChannel
  | pin
  | relockPin
  | outputPin
  | registerOffset
  | physicalAddress
  deriving DecidableEq

def Subject.label : Subject → String
  | .channel => "channel"
  | .inputChannel => "input channel"
  | .outputChannel => "output channel"
  | .pin => "analog pin"
  | .relockPin => "relock input pin"
  | .outputPin => "analog output pin"
  | .registerOffset => "register offset"
  | .physicalAddress => "physical address"

/-- An identity or address outside its enumeration. -/
structure RangeFault where
  subject : Subject
  value : Nat
  deriving DecidableEq

namespace RangeFault

/-- Addresses are reported as signed words, so the largest ones are cut there. -/
def ofAddress (subject : Subject) (address : Nat) : RangeFault :=
  ⟨subject, min address (1 <<< 63 - 1)⟩

def message (fault : RangeFault) : String :=
  fault.subject.label ++ " out of range: " ++ toString fault.value

end RangeFault

inductive Quantity where
  | voltage
  | absoluteVoltage
  | analogOutput
  | proportional
  | integral
  | relockStep
  deriving DecidableEq

def Quantity.label : Quantity → String
  | .voltage => "voltage"
  | .absoluteVoltage => "absolute voltage"
  | .analogOutput => "analog output voltage"
  | .proportional => "kp"
  | .integral => "ki"
  | .relockStep => "relock stepsize"

inductive FileCause where
  | notFound
  | isDirectory
  | notDirectory
  | nameTooLong
  | nulInName
  | notText
  | notMappable
  | noRoom
  | tooLong
  | other (description : String)
  deriving DecidableEq

def FileCause.message : FileCause → String
  | .notFound => "No such file or directory (os error 2)"
  | .isDirectory => "Is a directory (os error 21)"
  | .notDirectory => "Not a directory (os error 20)"
  | .nameTooLong => "File name too long (os error 36)"
  | .nulInName => "file name contained an unexpected NUL byte"
  | .notText => "stream did not contain valid UTF-8"
  | .notMappable => "Value too large for defined data type (os error 75)"
  | .noRoom => "Cannot allocate memory (os error 12)"
  | .tooLong => "memory map length overflows isize"
  | .other description => description

inductive Fault (ν : Type) where
  | outOfRange (fault : RangeFault)
  | invalid (quantity : Quantity) (value : ν)
  | unavailable (block : String) (cause : FileCause)
  deriving DecidableEq

namespace Fault

inductive Kind where
  | outOfRange
  | invalidParameterValue
  | resourceUnavailable
  deriving DecidableEq

def Kind.all : List Kind := [.outOfRange, .invalidParameterValue, .resourceUnavailable]

def Kind.label : Kind → String
  | .outOfRange => "out of range"
  | .invalidParameterValue => "invalid parameter value"
  | .resourceUnavailable => "resource unavailable"

def kind {ν : Type} : Fault ν → Kind
  | .outOfRange _ => .outOfRange
  | .invalid .. => .invalidParameterValue
  | .unavailable .. => .resourceUnavailable

def message : Fault Binary64 → String
  | .outOfRange fault => fault.message
  | .invalid quantity value => "invalid value for " ++ quantity.label ++ ": " ++ value.toMessage
  | .unavailable block cause =>
    "register block '" ++ block ++ "' unavailable: " ++ cause.message

end Fault

end LockServo

import LockServo.Fault
import LockServo.Text.Blank

/-!
# Slow analog pins

Four outputs and four inputs. Codes count the outputs first.
-/

namespace LockServo

structure UnknownPin where
  text : String
  deriving DecidableEq

def UnknownPin.message (unknown : UnknownPin) : String :=
  "unknown analog pin '" ++ unknown.text ++ "'"

inductive Pin where
  | output (index : Fin 4)
  | input (index : Fin 4)
  deriving DecidableEq

namespace Pin

def outputs : List Pin := (List.finRange 4).map .output

def inputs : List Pin := (List.finRange 4).map .input

def all : List Pin := outputs ++ inputs

theorem mem_all (p : Pin) : p ∈ all := by
  cases p <;> simp [all, outputs, inputs]

def isInput : Pin → Bool
  | .output _ => false
  | .input _ => true

def index : Pin → Fin 4
  | .output i | .input i => i

def code : Pin → Nat
  | .output i => i
  | .input i => 4 + i

def ofCode? (n : Nat) : Option Pin := all[n]?

theorem ofCode?_code (p : Pin) : ofCode? p.code = some p := by
  cases p <;> rename_i i <;> revert i <;> decide

def ofCode (n : Nat) : Except RangeFault Pin :=
  match ofCode? n with
  | some p => .ok p
  | none => .error ⟨.pin, n⟩

def name : Pin → String
  | .output i => "AOUT" ++ toString i.val
  | .input i => "AIN" ++ toString i.val

def ofName? (s : String) : Option Pin := all.find? (·.name == s)

/-- The pin with this name, in letters of either case and with blanks around it. -/
def ofText? (s : String) : Option Pin :=
  let letters := (Text.trim s.toList).map Char.toUpper
  all.find? (·.name.toList == letters)

def ofText (s : String) : Except UnknownPin Pin :=
  match ofText? s with
  | some p => .ok p
  | none => .error ⟨s⟩

end Pin

end LockServo

import LockServo.Arithmetic
import LockServo.Document.Value

/-!
# Reading fields of a document

A record may be a table with one entry for each field, or an array of the fields in order. Entries of a
table that no field has are passed over once they prove readable; so are the elements of an array behind
the last field, unread.
-/

namespace LockServo.Value

def string? : Value → Option String
  | .string text => some text
  | _ => none

def boolean? : Value → Option Bool
  | .boolean b => some b
  | _ => none

/-- A float, or an integer that a signed or an unsigned 64-bit word can hold. -/
def float? : Value → Option Binary64
  | .float x => some x
  | .integer n => if -0x8000000000000000 ≤ n ∧ n < 0x10000000000000000 then some (.ofRat n) else none
  | _ => none

def natural? (limit : Nat) : Value → Option Nat
  | .integer n => if 0 ≤ n ∧ n < limit then some n.toNat else none
  | _ => none

def list? {α : Type} (item : Value → Option α) : Value → Option (List α)
  | .array items => items.mapM item
  | _ => none

def pair? {α : Type} (item : Value → Option α) : Value → Option (α × α)
  | .array (a :: b :: _) => return (← item a, ← item b)
  | _ => none

/-- The name of a variant: a string, or a table whose one key has an empty value. -/
def variant? : Value → Option String
  | .string name => some name
  | .table [(name, .table [])] => some name
  | .table [(name, .array [])] => some name
  | _ => none

/-- The values of the named fields of a record, where present. A date counts as a table without any of
them. -/
def fields? (names : List String) : Value → Option (List (Option Value))
  | .table entries =>
    if entries.all fun e => names.contains e.1 || e.2.isReadable then
      some (names.map (Table.find? entries))
    else none
  | .moment => some (names.map fun _ => none)
  | .array items => some ((List.range names.length).map fun i => items[i]?)
  | _ => none

def required {α : Type} (read : Value → Option α) (v : Option Value) : Option α := v.bind read

def optional {α : Type} (default : α) (read : Value → Option α) : Option Value → Option α
  | none => some default
  | some v => read v

end LockServo.Value

import LockServo.Decimal.Text

/-!
# Documents

The tree that settings, parameter sets and reports are written as. Tables keep the order of their
entries. Two kinds of leaf are only ever read: a date or time, which no field takes, and a number without
a value, which spoils whatever looks at it.
-/

namespace LockServo

inductive Value where
  | string (text : String)
  | integer (n : Int)
  | float (x : Binary64)
  | boolean (b : Bool)
  | moment
  | unreadable
  | array (items : List Value)
  | table (entries : List (String × Value))

abbrev Table := List (String × Value)

namespace Table

def find? (t : Table) (key : String) : Option Value := (List.find? (·.1 == key) t).map (·.2)

end Table

namespace Value

mutual

def isReadable : Value → Bool
  | .unreadable => false
  | .array items => allReadable items
  | .table entries => entriesReadable entries
  | _ => true

def allReadable : List Value → Bool
  | [] => true
  | v :: rest => v.isReadable && allReadable rest

def entriesReadable : List (String × Value) → Bool
  | [] => true
  | (_, v) :: rest => v.isReadable && entriesReadable rest

end

end Value

end LockServo

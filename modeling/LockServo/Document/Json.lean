import LockServo.Document.Value

/-!
# Reports as JSON

A document with one entry or element a line, indented by two spaces for each level.
-/

namespace LockServo.Json

def indent (level : Nat) : String := String.ofList (List.replicate (2 * level) ' ')

def hexDigits (n : Nat) : String :=
  let digits := Nat.toDigits 16 n
  String.ofList (List.replicate (4 - digits.length) '0' ++ digits)

def escape (c : Char) : String :=
  match c with
  | '"' => "\\\""
  | '\\' => "\\\\"
  | '\n' => "\\n"
  | '\r' => "\\r"
  | '\t' => "\\t"
  | '\x08' => "\\b"
  | '\x0c' => "\\f"
  | c => if c.toNat < 0x20 then "\\u" ++ hexDigits c.toNat else c.toString

def quote (text : String) : String := "\"" ++ String.join (text.toList.map escape) ++ "\""

def bracket (level : Nat) (opening closing : String) (items : List String) : String :=
  if items.isEmpty then opening ++ closing
  else
    opening ++ "\n" ++ String.intercalate ",\n" (items.map (indent (level + 1) ++ ·)) ++ "\n" ++
      indent level ++ closing

mutual

def render (level : Nat) : Value → String
  | .string text => quote text
  | .integer n => toString n
  | .float x => x.toReport
  | .boolean b => if b then "true" else "false"
  | .moment | .unreadable => "null"
  | .array items => bracket level "[" "]" (renderItems level items)
  | .table entries => bracket level "\x7b" "\x7d" (renderEntries level entries)

def renderItems (level : Nat) : List Value → List String
  | [] => []
  | v :: rest => render (level + 1) v :: renderItems level rest

def renderEntries (level : Nat) : List (String × Value) → List String
  | [] => []
  | (key, v) :: rest => (quote key ++ ": " ++ render (level + 1) v) :: renderEntries level rest

end

end LockServo.Json

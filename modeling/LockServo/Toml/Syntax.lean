import LockServo.Toml.Scalar
import LockServo.Toml.Text
import LockServo.Toml.Tree

/-!
# The syntax of TOML

From characters to statements. Arrays and inline tables nest eighty deep at most, and a key has at most
eighty names; both brackets may spread over lines and end in a comma. A loop over items goes on only while
the rest gets shorter.
-/

namespace LockServo.Toml

abbrev Reader (α : Type) := List Char → Option (α × List Char)

def isSpace (c : Char) : Bool := c == ' ' || c == '\t'

def skipSpaces (s : List Char) : List Char := s.dropWhile isSpace

def lineBreak? : List Char → Option (List Char)
  | '\n' :: rest => some rest
  | '\r' :: '\n' :: rest => some rest
  | _ => none

/-- What is behind a comment, which ends before a line break or with the text. -/
def skipComment? : List Char → Option (List Char)
  | '#' :: rest =>
    let body := rest.takeWhile (· != '\n')
    let after := rest.dropWhile (· != '\n')
    let (text, after) :=
      match after, body.getLast? with
      | '\n' :: _, some '\r' => (body.dropLast, '\r' :: after)
      | _, _ => (body, after)
    if text.any isControl then none else some after
  | s => some s

def skipLines? (s : List Char) : Option (List Char) := do
  let rest := skipSpaces s
  match rest with
  | '#' :: _ =>
    let after ← skipComment? rest
    if after.length < s.length then skipLines? after else none
  | _ =>
    match lineBreak? rest with
    | some after => if after.length < s.length then skipLines? after else none
    | none => some rest
termination_by s.length

def endLine? (s : List Char) : Option (List Char) := do
  let rest ← skipComment? (skipSpaces s)
  match rest with
  | [] => some []
  | _ => lineBreak? rest

/-! ## Keys -/

def isBare (c : Char) : Bool := c.isAlphanum || c == '_' || c == '-'

def simpleKey? : Reader String := fun s =>
  match s with
  | '"' :: rest => (basic? [] rest).map fun (text, rest) => (String.ofList text, rest)
  | '\'' :: rest => (literal? [] rest).map fun (text, rest) => (String.ofList text, rest)
  | _ =>
    let name := s.takeWhile isBare
    if name.isEmpty then none else some (String.ofList name, s.dropWhile isBare)

def names? (s : List Char) : Option (List String × List Char) := do
  let (name, rest) ← simpleKey? (skipSpaces s)
  match skipSpaces rest with
  | '.' :: after =>
    if after.length < s.length then
      let (names, rest) ← names? after
      return (name :: names, rest)
    else none
  | after => return ([name], after)
termination_by s.length

/-- How deep arrays and inline tables may nest, and how many names a key may have. -/
def depthLimit : Nat := 80

def key? : Reader (List String) := fun s => do
  let (path, rest) ← names? s
  if path.length ≤ depthLimit then return (path, rest) else none

/-! ## Values -/

def endsScalar (c : Char) : Bool :=
  isSpace c || c == '\n' || c == '\r' || c == '#' || c == ',' || c == '=' || c == '[' || c == ']' ||
    c == '\x7b' || c == '\x7d'

/-- The characters of a scalar; a space may part a date from a time. -/
def scalarText (s : List Char) : List Char × List Char :=
  let first := s.takeWhile (!endsScalar ·)
  let rest := s.dropWhile (!endsScalar ·)
  match rest with
  | ' ' :: after =>
    let second := after.takeWhile (!endsScalar ·)
    if afterDate? first == some [] && (second.head?.any Char.isDigit) then
      (first ++ ' ' :: second, after.dropWhile (!endsScalar ·))
    else (first, rest)
  | _ => (first, rest)

def plainValue? : Reader Value := fun s =>
  match s with
  | '"' :: _ | '\'' :: _ => (string? s).map fun (text, rest) => (.string (String.ofList text), rest)
  | _ =>
    let (text, rest) := scalarText s
    (scalar? text).map (·, rest)

def items? {α : Type} (closing : Char) (item : Reader α) (s : List Char) :
    Option (List α × List Char) := do
  let s' ← skipLines? s
  match s' with
  | c :: rest =>
    if c = closing then return ([], rest)
    else
      let (first, rest) ← item s'
      let rest ← skipLines? rest
      match rest with
      | ',' :: after =>
        if after.length < s.length then
          let (others, rest) ← items? closing item after
          return (first :: others, rest)
        else none
      | c :: after => if c = closing then return ([first], after) else none
      | [] => none
  | [] => none
termination_by s.length

/-- A key, an equals sign, and a value; `skip` passes over what may stand around the sign. -/
def pair? (skip : List Char → Option (List Char)) (value : Reader Value) :
    Reader (List String × Value) := fun s => do
  let (path, rest) ← key? s
  match ← skip rest with
  | '=' :: rest =>
    let (v, rest) ← value (← skip rest)
    return ((path, v), rest)
  | _ => none

def inlineTable? (pairs : List (List String × Value)) : Option Value := do
  let entries ← pairs.foldlM (fun es p => Entries.assign p.1 p.2 es) []
  return .table (entriesToTable entries)

def value? : Nat → Reader Value
  | 0 => plainValue?
  | depth + 1 => fun s =>
    match s with
    | '[' :: rest => do
      let (items, rest) ← items? ']' (value? depth) rest
      return (.array items, rest)
    | '\x7b' :: rest => do
      let (pairs, rest) ← items? '\x7d' (pair? skipLines? (value? depth)) rest
      return (← inlineTable? pairs, rest)
    | _ => plainValue? s

/-! ## Statements -/

def statement? (s : List Char) : Option (Statement × List Char) :=
  match s with
  | '[' :: '[' :: rest => do
    let (path, rest) ← key? rest
    match rest with
    | ']' :: ']' :: rest => return (.element path, rest)
    | _ => none
  | '[' :: rest => do
    let (path, rest) ← key? rest
    match rest with
    | ']' :: rest => return (.header path, rest)
    | _ => none
  | _ =>
    (pair? (some ∘ skipSpaces) (value? depthLimit) s).map fun (p, rest) => (.pair p.1 p.2, rest)

def statements? (s : List Char) : Option (List Statement) := do
  let start ← skipLines? s
  match start with
  | [] => return []
  | _ =>
    let (first, rest) ← statement? start
    let rest ← endLine? rest
    if rest.length < s.length then
      return first :: (← statements? rest)
    else none
termination_by s.length

/-- The table that a text writes; a byte order mark in front is passed over. -/
def parse? (text : String) : Option Table := do
  let s :=
    match text.toList with
    | '\ufeff' :: rest => rest
    | s => s
  tableOf? (← statements? s)

end LockServo.Toml

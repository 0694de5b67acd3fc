import LockServo.Text.Blank

/-!
# Strings in TOML

The four forms of a string: basic and literal, on one line and on several. Reading takes any of them
after its opening quotes; writing takes the plainest form that holds the text, and escapes where none
does. Every form holds a tab, but the basic ones write it as an escape.
-/

namespace LockServo.Toml

/-- Characters that may not stand in a document as they are; a tab may. -/
def isControl (c : Char) : Bool := (c.toNat < 0x20 && c != '\t') || c == '\x7f'

def codePoint? (digits : List Char) : Option Char := do
  let n ← Text.number? 16 digits
  if n.isValidChar then some (Char.ofNat n) else none

def shortEscape? : Char → Option Char
  | 'b' => some '\x08'
  | 't' => some '\t'
  | 'n' => some '\n'
  | 'f' => some '\x0c'
  | 'r' => some '\r'
  | 'e' => some '\x1b'
  | '"' => some '"'
  | '\\' => some '\\'
  | _ => none

def escape? : List Char → Option (Char × List Char)
  | 'x' :: a :: b :: rest => (codePoint? [a, b]).map (·, rest)
  | 'u' :: a :: b :: c :: d :: rest => (codePoint? [a, b, c, d]).map (·, rest)
  | 'U' :: a :: b :: c :: d :: e :: f :: g :: h :: rest =>
    (codePoint? [a, b, c, d, e, f, g, h]).map (·, rest)
  | c :: rest => (shortEscape? c).map (·, rest)
  | [] => none

theorem length_lt_of_escape? {s rest : List Char} {c : Char} (h : escape? s = some (c, rest)) :
    rest.length < s.length := by
  unfold escape? at h
  split at h
  case h_5 => cases h
  all_goals
    obtain ⟨_, _, heq⟩ := Option.map_eq_some_iff.mp h
    cases heq
    simp only [List.length_cons]
    omega

def basic? (done : List Char) : List Char → Option (List Char × List Char)
  | '"' :: rest => some (done.reverse, rest)
  | '\\' :: rest =>
    match _h : escape? rest with
    | some (c, rest') => basic? (c :: done) rest'
    | none => none
  | c :: rest => if isControl c then none else basic? (c :: done) rest
  | [] => none
termination_by s => s.length
decreasing_by
  · have := length_lt_of_escape? _h
    simp only [List.length_cons]
    omega
  · simp only [List.length_cons]
    omega

def literal? (done : List Char) : List Char → Option (List Char × List Char)
  | '\'' :: rest => some (done.reverse, rest)
  | c :: rest => if isControl c then none else literal? (c :: done) rest
  | [] => none

def startsBreak (s : List Char) : Bool :=
  match s.dropWhile fun c => c == ' ' || c == '\t' with
  | '\n' :: _ => true
  | '\r' :: '\n' :: _ => true
  | _ => false

/-- A basic string on several lines, up to its closing quotes; up to two more quotes before them belong
to the text. While `folding`, blanks and line breaks are passed over. -/
def multiBasic? (folding : Bool) (done : List Char) : List Char → Option (List Char × List Char)
  | '"' :: '"' :: '"' :: '"' :: '"' :: rest => some (('"' :: '"' :: done).reverse, rest)
  | '"' :: '"' :: '"' :: '"' :: rest => some (('"' :: done).reverse, rest)
  | '"' :: '"' :: '"' :: rest => some (done.reverse, rest)
  | '\r' :: '\n' :: rest =>
    multiBasic? folding (if folding then done else '\n' :: '\r' :: done) rest
  | '\n' :: rest => multiBasic? folding (if folding then done else '\n' :: done) rest
  | '\\' :: rest =>
    if startsBreak rest then multiBasic? true done rest
    else
      match _h : escape? rest with
      | some (c, rest') => multiBasic? false (c :: done) rest'
      | none => none
  | c :: rest =>
    if isControl c then none
    else if folding && (c == ' ' || c == '\t') then multiBasic? true done rest
    else multiBasic? false (c :: done) rest
  | [] => none
termination_by s => s.length
decreasing_by
  all_goals simp only [List.length_cons]
  all_goals first
    | omega
    | (have shorter := length_lt_of_escape? _h; omega)

def multiLiteral? (done : List Char) : List Char → Option (List Char × List Char)
  | '\'' :: '\'' :: '\'' :: '\'' :: '\'' :: rest => some (('\'' :: '\'' :: done).reverse, rest)
  | '\'' :: '\'' :: '\'' :: '\'' :: rest => some (('\'' :: done).reverse, rest)
  | '\'' :: '\'' :: '\'' :: rest => some (done.reverse, rest)
  | '\r' :: '\n' :: rest => multiLiteral? ('\n' :: '\r' :: done) rest
  | '\n' :: rest => multiLiteral? ('\n' :: done) rest
  | c :: rest => if isControl c then none else multiLiteral? (c :: done) rest
  | [] => none

def dropBreak : List Char → List Char
  | '\r' :: '\n' :: rest => rest
  | '\n' :: rest => rest
  | s => s

def string? : List Char → Option (List Char × List Char)
  | '"' :: '"' :: '"' :: rest => multiBasic? false [] (dropBreak rest)
  | '\'' :: '\'' :: '\'' :: rest => multiLiteral? [] (dropBreak rest)
  | '"' :: rest => basic? [] rest
  | '\'' :: rest => literal? [] rest
  | _ => none

/-! ## Writing -/

/-- Characters that only an escape can write. A tab or a line break can stand in some form as it is. -/
def needsEscape (c : Char) : Bool := isControl c && c != '\n'

def longestRun (x : Char) (s : List Char) : Nat := go 0 0 s
where
  go (best run : Nat) : List Char → Nat
    | [] => max best run
    | c :: rest => if c = x then go best (run + 1) rest else go (max best run) 0 rest

def upperHex (n : Nat) : List Char :=
  let digits := (Nat.toDigits 16 n).map Char.toUpper
  List.replicate (4 - digits.length) '0' ++ digits

def escaped (c : Char) : List Char :=
  match c with
  | '\x08' => ['\\', 'b']
  | '\t' => ['\\', 't']
  | '\x0c' => ['\\', 'f']
  | '\r' => ['\\', 'r']
  | '\\' => ['\\', '\\']
  | c => if needsEscape c then '\\' :: 'u' :: upperHex c.toNat else [c]

def escapedLine (s : List Char) : List Char :=
  s.flatMap fun c =>
    if c = '"' then ['\\', '"'] else if c = '\n' then ['\\', 'n'] else escaped c

/-- Line breaks stand as they are, and every third quote of a run is escaped. -/
def escapedLines (quotes : Nat) : List Char → List Char
  | [] => []
  | '"' :: rest =>
    if quotes = 2 then '\\' :: '"' :: escapedLines 0 rest else '"' :: escapedLines (quotes + 1) rest
  | c :: rest => escaped c ++ escapedLines 0 rest

def quote (text : String) : String :=
  let s := text.toList
  let codes := s.any needsEscape
  let slash := s.contains '\\'
  let lines := s.contains '\n'
  let doubles := longestRun '"' s
  let singles := longestRun '\'' s
  let opening := if lines then "\n" else ""
  let basic := "\"" ++ String.ofList (escapedLine s) ++ "\""
  let multiBasic := "\"\"\"" ++ opening ++ String.ofList (escapedLines 0 s) ++ "\"\"\""
  if !codes && !slash && !lines && doubles == 0 then basic
  else if !codes && !lines && singles == 0 then "'" ++ text ++ "'"
  else if !codes && !slash && doubles ≤ 2 then multiBasic
  else if !codes && singles ≤ 2 then "'''" ++ opening ++ text ++ "'''"
  else if lines then multiBasic
  else basic

end LockServo.Toml

import LockServo.Toml.Syntax

/-!
# Writing TOML

A table is written as its plain entries, one a line, and then its tables and lists of tables under
headers of their own, with an empty line before each header but the first line. A table that holds
nothing but tables needs no header.
-/

namespace LockServo.Toml

def renderKey (key : String) : String :=
  if !key.isEmpty && key.toList.all isBare then key else quote key

def renderPath (path : List String) : String := String.intercalate "." (path.map renderKey)

mutual

def renderInline : Value → String
  | .string text => quote text
  | .integer n => toString n
  | .float x => x.toDocument
  | .boolean b => if b then "true" else "false"
  | .moment | .unreadable => "nan"
  | .array items => "[" ++ String.intercalate ", " (renderItems items) ++ "]"
  | .table entries => "\x7b " ++ String.intercalate ", " (renderPairs entries) ++ " \x7d"

def renderItems : List Value → List String
  | [] => []
  | v :: rest => renderInline v :: renderItems rest

def renderPairs : List (String × Value) → List String
  | [] => []
  | (key, v) :: rest => (renderKey key ++ " = " ++ renderInline v) :: renderPairs rest

end

def isTable : Value → Bool
  | .table _ => true
  | _ => false

/-- Entries written on a line: neither a table nor a nonempty list of tables. -/
def isPlain : Value → Bool
  | .table _ => false
  | .array (v :: rest) => !(v :: rest).all isTable
  | _ => true

def plainLines (entries : Table) : List String :=
  (entries.filter (isPlain ·.2)).map fun (key, v) => renderKey key ++ " = " ++ renderInline v

mutual

def subsections (path : List String) : List (String × Value) → List (List String)
  | [] => []
  | (key, v) :: rest => sections (path ++ [key]) v ++ subsections path rest

def sections (path : List String) : Value → List (List String)
  | .table entries =>
    let lines := plainLines entries
    let below := subsections path entries
    if lines.isEmpty && !below.isEmpty then below
    else (("[" ++ renderPath path ++ "]") :: lines) :: below
  | .array (v :: rest) => if (v :: rest).all isTable then elements path (v :: rest) else []
  | _ => []

def elements (path : List String) : List Value → List (List String)
  | [] => []
  | .table entries :: rest =>
    (("[[" ++ renderPath path ++ "]]") :: plainLines entries) :: subsections path entries ++
      elements path rest
  | _ :: rest => elements path rest

end

def render (t : Table) : String :=
  let top := plainLines t
  let all := (if top.isEmpty then [] else [top]) ++ subsections [] t
  String.intercalate "\n" (all.map fun lines => String.join (lines.map (· ++ "\n")))

end LockServo.Toml

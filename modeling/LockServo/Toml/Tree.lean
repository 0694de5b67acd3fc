import LockServo.Document.Value

/-!
# Tables under construction

Statements of a document grow a tree whose tables remember how they came to be: implied by a longer
header, opened by a header of their own, or made by a dotted key. A header opens a table once; a dotted
key adds only to tables of its own kind; a value, an inline table among them, is never extended.
-/

namespace LockServo.Toml

inductive Origin where
  | implied
  | header
  | dotted
  deriving DecidableEq

inductive Node where
  | leaf (v : Value)
  | table (origin : Origin) (entries : List (String × Node))
  /-- A list of tables, the last of which is still open. -/
  | tables (done : List (List (String × Node))) (last : List (String × Node))

abbrev Entries := List (String × Node)

namespace Entries

def find? (es : Entries) (key : String) : Option Node := (List.find? (·.1 == key) es).map (·.2)

def put (es : Entries) (key : String) (node : Node) : Entries :=
  match es with
  | [] => [(key, node)]
  | e :: rest => if e.1 = key then (key, node) :: rest else e :: put rest key node

def assign : List String → Value → Entries → Option Entries
  | [], _, _ => none
  | [key], v, es =>
    match es.find? key with
    | none => some (es.put key (.leaf v))
    | some _ => none
  | key :: rest, v, es =>
    match es.find? key with
    | none => (assign rest v []).map fun sub => es.put key (.table .dotted sub)
    | some (.table .dotted sub) => (assign rest v sub).map fun sub => es.put key (.table .dotted sub)
    | some (.table .implied sub) =>
      if rest.length = 1 then none
      else (assign rest v sub).map fun sub => es.put key (.table .implied sub)
    | some (.tables done last) =>
      if rest.length = 1 then none
      else (assign rest v last).map fun last => es.put key (.tables done last)
    | some _ => none

/-- Changes the table that a header names, where the last table of a list stands for the list. -/
def within (f : Entries → Option Entries) : List String → Entries → Option Entries
  | [], es => f es
  | key :: rest, es =>
    match es.find? key with
    | none => (within f rest []).map fun sub => es.put key (.table .implied sub)
    | some (.table origin sub) => (within f rest sub).map fun sub => es.put key (.table origin sub)
    | some (.tables done last) => (within f rest last).map fun last => es.put key (.tables done last)
    | some (.leaf _) => none

def openTable (key : String) (es : Entries) : Option Entries :=
  match es.find? key with
  | none => some (es.put key (.table .header []))
  | some (.table .implied sub) => some (es.put key (.table .header sub))
  | some _ => none

def openElement (key : String) (es : Entries) : Option Entries :=
  match es.find? key with
  | none => some (es.put key (.tables [] []))
  | some (.tables done last) => some (es.put key (.tables (done ++ [last]) []))
  | some _ => none

end Entries

mutual

def Node.toValue : Node → Value
  | .leaf v => v
  | .table _ entries => .table (entriesToTable entries)
  | .tables done last => .array (tablesToItems done ++ [.table (entriesToTable last)])

def entriesToTable : List (String × Node) → List (String × Value)
  | [] => []
  | (key, node) :: rest => (key, node.toValue) :: entriesToTable rest

def tablesToItems : List (List (String × Node)) → List Value
  | [] => []
  | entries :: rest => .table (entriesToTable entries) :: tablesToItems rest

end

inductive Statement where
  | header (path : List String)
  | element (path : List String)
  | pair (path : List String) (v : Value)

def splitLast (path : List String) : Option (List String × String) :=
  path.getLast?.map (path.dropLast, ·)

/-- One step: the tree so far, and the path of the table that pairs go into. -/
def Statement.extend (tree : Entries × List String) : Statement → Option (Entries × List String)
  | .header path => do
    let (before, key) ← splitLast path
    return (← Entries.within (Entries.openTable key) before tree.1, path)
  | .element path => do
    let (before, key) ← splitLast path
    return (← Entries.within (Entries.openElement key) before tree.1, path)
  | .pair path v => return (← Entries.within (Entries.assign path v) tree.2 tree.1, tree.2)

def tableOf? (statements : List Statement) : Option Table := do
  let (entries, _) ← statements.foldlM Statement.extend ([], [])
  return entriesToTable entries

end LockServo.Toml

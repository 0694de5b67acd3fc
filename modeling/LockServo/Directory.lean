import LockServo.Fault
import LockServo.Register.Memory
import LockServo.Text.Blank

/-!
# A working directory

Files by name, some of which stand for physical memory, and what a path finds among them. Directories
are the working directory itself and those above it; nothing else is in the ones above.
-/

namespace LockServo

open Register

inductive Entry where
  | file (bytes : ByteArray)
  | device (memory : Memory)

structure Directory where
  entries : List (String × Entry)

namespace Directory

def empty : Directory := ⟨[]⟩

def find? (d : Directory) (name : String) : Option Entry :=
  (d.entries.find? (·.1 == name)).map (·.2)

def insert (d : Directory) (name : String) (entry : Entry) : Directory :=
  if d.entries.any (·.1 == name) then
    ⟨d.entries.map fun e => if e.1 == name then (name, entry) else e⟩
  else ⟨d.entries ++ [(name, entry)]⟩

inductive Place where
  | here
  | above
  | named (name : String)
  deriving DecidableEq

/-- The longest path and the longest name, in bytes. -/
def pathLimit : Nat := 4095

def nameLimit : Nat := 255

def walk (d : Directory) (place : Place) (part : List Char) : Except FileCause Place :=
  match place with
  | .named name => .error (if (d.find? name).isSome then .notDirectory else .notFound)
  | .here | .above =>
    let name := String.ofList part
    if name.isEmpty || name == "." then .ok place
    else if name == ".." then .ok .above
    else if nameLimit < name.utf8ByteSize then .error .nameTooLong
    else if place = .here then .ok (.named name)
    else .error .notFound

def parts (path : String) : Except FileCause (List (List Char)) :=
  if path.toList.contains '\x00' then .error .nulInName
  else if path.isEmpty then .error .notFound
  else if pathLimit < path.utf8ByteSize then .error .nameTooLong
  else .ok (Text.splitAt '/' path.toList)

/-- An absolute path starts with nothing before its first slash. -/
def follow (d : Directory) (parts : List (List Char)) : Except FileCause Place :=
  parts.foldlM d.walk (if parts.head? = some [] then .above else .here)

def locate (d : Directory) (path : String) : Except FileCause Place := do d.follow (← parts path)

/-- The entry at a path that is not a directory. -/
def entry (d : Directory) (path : String) : Except FileCause Entry := do
  match ← d.locate path with
  | .here | .above => throw .isDirectory
  | .named name =>
    match d.find? name with
    | some entry => return entry
    | none => throw .notFound

def read (d : Directory) (path : String) : Except FileCause ByteArray := do
  match ← d.entry path with
  | .file bytes => return bytes
  | .device _ => throw .notText

/-- The memory behind a device, or behind the bytes of any other file. -/
def memory (d : Directory) (path : String) : Except FileCause Memory := do
  match ← d.entry path with
  | .file bytes => return .ofBytes bytes
  | .device memory => return memory

/-- Whether a file can be written at a path. Slashes at the end ask for a directory, whatever they follow. -/
def writable (d : Directory) (path : String) : Except FileCause Unit := do
  let steps ← parts path
  if steps.getLast? = some [] then
    let parent := ((steps.reverse.dropWhile List.isEmpty).drop 1).reverse
    if !parent.isEmpty then
      let _ ← d.follow (parent ++ [[]])
    throw .isDirectory
  match ← d.follow steps with
  | .here | .above => throw .isDirectory
  | .named _ => return ()

def put (d : Directory) (path : String) (entry : Entry) : Directory :=
  match d.locate path with
  | .ok (.named name) => d.insert name entry
  | _ => d

/-- The directory with other memory behind a device; no other file takes any. -/
def putMemory (d : Directory) (path : String) (memory : Memory) : Directory :=
  match d.entry path with
  | .ok (.device _) => d.put path (.device memory)
  | _ => d

end Directory

end LockServo

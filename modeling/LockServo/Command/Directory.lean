import LockServo.Command.Run
import LockServo.Directory

/-!
# Running in a working directory

A run finds its files in a directory and leaves a directory behind.
-/

namespace LockServo.Directory

def surroundings (d : Directory) : Surroundings := ⟨d.read, d.memory, d.writable⟩

/-- The directory that a run leaves: the device first, then the file it wrote. -/
def after (d : Directory) (outcome : Outcome) : Directory :=
  let d :=
    match outcome.memory with
    | some (path, memory) => d.putMemory path memory
    | none => d
  match outcome.file with
  | some (path, text) => d.put path (.file text.toUTF8)
  | none => d

def execute (d : Directory) (words : List String) : Reporting (Outcome × Directory) := do
  let outcome ← (Request.ofArguments words).perform d.surroundings
  return (outcome, d.after outcome)

end LockServo.Directory

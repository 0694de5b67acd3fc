import LockServo.Command.Run

/-!
# The program

The outer layer: it fetches what a run will look at, performs the run, and carries its outcome out to the
system. A memory device is read and written as a file of bytes, only at the three register blocks.
-/

open LockServo Register

def causeOf : IO.Error → FileCause
  | .noFileOrDirectory .. => .notFound
  | .inappropriateType _ 21 _ => .isDirectory
  | .inappropriateType _ 20 _ => .notDirectory
  | .permissionDenied _ code text | .inappropriateType _ code text =>
    .other (text ++ " (os error " ++ toString code ++ ")")
  | error => .other (toString error)

def fetch {α : Type} (action : IO α) : IO (Except FileCause α) := do
  try return .ok (← action)
  catch error => return .error (causeOf error)

/-! ## The memory device -/

def blocksInOrder : List Block := [.pid, .analog, .limit]

def skip (h : IO.FS.Handle) (count : Nat) : IO Bool := do
  let chunk := 1 <<< 20
  let mut passed := 0
  for _ in [0 : count / chunk] do
    passed := passed + (← h.read (USize.ofNat chunk)).size
  if count % chunk ≠ 0 then
    passed := passed + (← h.read (USize.ofNat (count % chunk))).size
  return passed == count

/-- What a device holds at the blocks; zeros behind its end. -/
def readDevice (path : String) : IO Memory := do
  let h ← IO.FS.Handle.mk path .readWrite
  let mut place := 0
  let mut segments : List (Block × ByteArray) := []
  for b in blocksInOrder do
    let _ ← skip h (b.base - place)
    segments := (b, ← h.read (USize.ofNat b.size)) :: segments
    place := b.base + b.size
  let parts := segments
  return ⟨fun a =>
    match parts.find? fun (b, _) => b.base ≤ a && a < b.base + b.size with
    | some (b, bytes) => bytes.data.getD (a - b.base) 0
    | none => 0⟩

def writeDevice (path : String) (memory : Memory) : IO Unit := do
  let h ← IO.FS.Handle.mk path .readWrite
  let mut place := 0
  for b in blocksInOrder do
    if ← skip h (b.base - place) then
      h.flush
      h.write ⟨(Array.range b.size).map fun i => memory.byte (b.base + i)⟩
      h.flush
    place := b.base + b.size

/-! ## Runs -/

def nowhere : Surroundings :=
  ⟨fun _ => .error .notFound, fun _ => .error .notFound, fun _ => .ok ()⟩

def gather : Request → IO Surroundings
  | .run options command => do
    let config ← fetch (IO.FS.readBinFile options.config)
    let device ←
      match (options.settings config).value with
      | .ok settings =>
        if settings.simulate then pure (.error .notFound) else fetch (readDevice settings.device)
      | .error _ => pure (.error .notFound)
    let file ←
      match command with
      | .load path => fetch (IO.FS.readBinFile path)
      | _ => pure (.error .notFound)
    return {
      read := fun path => if path = options.config then config else file
      memory := fun _ => device
      writable := fun _ => .ok () }
  | _ => return nowhere

/-- The run again, as it goes when its file cannot be written. -/
def settle (request : Request) (s : Surroundings) : IO (Reporting Outcome) := do
  let logged := request.perform s
  match logged.value.file with
  | none => return logged
  | some (path, text) =>
    match ← fetch (IO.FS.writeFile path text) with
    | .ok _ => return logged
    | .error cause => return request.perform { s with writable := fun _ => .error cause }

def logLine (json : Bool) (event : Event) : String :=
  let level := event.severity.label
  if json then
    "\x7b\"level\":" ++ Json.quote level ++ ",\"message\":" ++ Json.quote event.message ++ "\x7d"
  else String.ofList (List.replicate (5 - level.length) ' ') ++ level ++ " " ++ event.message

def main (words : List String) : IO UInt32 := do
  let request := Request.ofArguments words
  let surroundings ← gather request
  let logged ← settle request surroundings
  let outcome := logged.value
  if let some (path, memory) := outcome.memory then
    writeDevice path memory
  let json :=
    match request with
    | .run options _ => options.json
    | _ => false
  for event in logged.events do
    IO.eprintln (logLine json event)
  if request = .misuse then
    IO.eprint usage
  IO.print outcome.output
  return UInt32.ofNat outcome.exitCode

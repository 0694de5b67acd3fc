import LockServo.Event
import LockServo.Fault
import LockServo.Register.Map
import LockServo.Register.Memory
import LockServo.Register.Word

/-!
# Register windows

A window is a named block of words, held by the window itself or mapped from physical memory. Every
access names the word by its byte offset and is refused outside the block or off a word's start.
-/

namespace LockServo.Register

inductive Cells where
  | held (words : Array UInt32)
  | mapped (mapping : Mapping)
  deriving DecidableEq

structure Window where
  name : String
  cells : Cells
  deriving DecidableEq

structure View where
  window : Window
  memory : Memory

namespace Window

def length (w : Window) : Nat :=
  match w.cells with
  | .held words => words.size * wordSize
  | .mapped mapping => mapping.length

def isEmpty (w : Window) : Bool := w.length == 0

def simulated (name : String) (bytes : Nat) : Window :=
  ⟨name, .held (Array.replicate ((bytes + wordSize - 1) / wordSize) 0)⟩

def isWord (w : Window) (offset : Nat) : Bool :=
  offset % wordSize == 0 && offset + wordSize ≤ w.length

def describe (w : Window) : String :=
  "RegisterWindow \x7b name: \"" ++ w.name ++ "\", len: " ++ toString w.length ++ ", .. \x7d"

/-- The first address that no file offset can reach. -/
def mappingLimit : Nat := 1 <<< 63

/-- The longest stretch whose bytes can all be told apart by a signed index. -/
def longestMapping : Nat := 1 <<< 63 - 1

/-- The longest gap in the addresses of a program, which lies two thirds of the way up in them. -/
def mappingRoom : Nat := (1 <<< 47 - 0x1000) / 3 * 2

def refusal? (page : Nat) (mapping : Mapping) : Option FileCause :=
  if longestMapping < mapping.inPage + mapping.length then some .tooLong
  else if mappingRoom < mapping.pages page then some .noRoom
  else if mappingLimit ≤ mapping.base + mapping.pages page then some .notMappable
  else none

def map {ν : Type} (page : Nat) (device : Except FileCause Memory) (name : String)
    (address length : Nat) : Reporting (Except (Fault ν) Window) := do
  if address % wordSize ≠ 0 then
    return .error (.outOfRange (.ofAddress .physicalAddress address))
  report .mappingBlock
  match device with
  | .error cause => return .error (.unavailable name cause)
  | .ok _ =>
    let mapping := Mapping.ofAddress page address length
    if let some cause := refusal? page mapping then
      return .error (.unavailable name cause)
    report .blockMapped
    return .ok ⟨name, .mapped mapping⟩

def close (w : Window) : Reporting Unit :=
  match w.cells with
  | .held _ => pure ()
  | .mapped _ => report .blockUnmapped

end Window

namespace View

def get (v : View) (offset : Nat) : UInt32 :=
  match v.window.cells with
  | .held words => words.getD (offset / wordSize) 0
  | .mapped mapping => v.memory.readWord (mapping.address offset)

def set (v : View) (offset : Nat) (word : UInt32) : View :=
  match v.window.cells with
  | .held words =>
    ⟨⟨v.window.name, .held (words.setIfInBounds (offset / wordSize) word)⟩, v.memory⟩
  | .mapped mapping => ⟨v.window, v.memory.writeWord (mapping.address offset) word⟩

def words (v : View) : List UInt32 :=
  (List.range (v.window.length / wordSize)).map fun i => v.get (wordSize * i)

def check (v : View) (offset : Nat) : Except RangeFault Unit :=
  if v.window.isWord offset then .ok () else .error (.ofAddress .registerOffset offset)

def read (v : View) (offset : Nat) : Except RangeFault UInt32 := do
  v.check offset
  return v.get offset

def write (v : View) (offset : Nat) (word : UInt32) : Except RangeFault View := do
  v.check offset
  return v.set offset word

def modify (v : View) (offset : Nat) (f : UInt32 → UInt32) : Except RangeFault (UInt32 × View) := do
  v.check offset
  let next := f (v.get offset)
  return (next, v.set offset next)

def getField (v : View) (offset : Nat) (mask shift : UInt32) : Except RangeFault UInt32 :=
  return Register.getField (← v.read offset) mask shift

def setField (v : View) (offset : Nat) (value mask shift : UInt32) : Except RangeFault View :=
  return (← v.modify offset (Register.setField · value mask shift)).2

def setBits (v : View) (offset : Nat) (bits mask : UInt32) : Except RangeFault View :=
  return (← v.modify offset (Register.setBits · bits mask)).2

def clearBits (v : View) (offset : Nat) (bits mask : UInt32) : Except RangeFault View :=
  return (← v.modify offset (Register.clearBits · bits mask)).2

def bitsSet (v : View) (offset : Nat) (bits mask : UInt32) : Except RangeFault Bool :=
  return Register.bitsSet (← v.read offset) bits mask

end View

end LockServo.Register

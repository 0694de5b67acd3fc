import LockServo.Channel
import LockServo.Feature
import LockServo.Pin

/-!
# The register map

Three blocks of 32-bit words and the fields in them. Fields of one loop stand at the loop's slot in a
group of four words; the features of all loops share one word.
-/

namespace LockServo.Register

def wordSize : Nat := 4

inductive Block where
  | pid
  | limit
  | analog
  deriving DecidableEq

namespace Block

def all : List Block := [.pid, .limit, .analog]

def name : Block → String
  | .pid => "pid"
  | .limit => "limit"
  | .analog => "ams"

def ofName? (s : String) : Option Block := all.find? (·.name == s)

def base : Block → Nat
  | .pid => 0x40300000
  | .limit => 0x40600000
  | .analog => 0x40400000

def size : Block → Nat
  | .pid => 0x90
  | .limit => 0x10
  | .analog => 0x60

end Block

inductive Bound where
  | low
  | high
  deriving DecidableEq

inductive Field where
  | features
  | setpoint (loop : Loop)
  | proportional (loop : Loop)
  | integral (loop : Loop)
  | derivative (loop : Loop)
  | relockLow (loop : Loop)
  | relockHigh (loop : Loop)
  | relockStep (loop : Loop)
  | relockPin (loop : Loop)
  | limit (channel : Channel) (bound : Bound)
  | slowInput (index : Fin 4)
  | slowOutput (index : Fin 4)
  | fastInput (channel : Channel)
  | fastOutput (channel : Channel)
  deriving DecidableEq

namespace Field

def block : Field → Block
  | .limit .. => .limit
  | .slowInput _ | .slowOutput _ | .fastInput _ | .fastOutput _ => .analog
  | _ => .pid

def offset : Field → Nat
  | .features => 0x00
  | .setpoint l => 0x10 + wordSize * l.slot
  | .proportional l => 0x20 + wordSize * l.slot
  | .integral l => 0x30 + wordSize * l.slot
  | .derivative l => 0x40 + wordSize * l.slot
  | .relockLow l => 0x50 + wordSize * l.slot
  | .relockHigh l => 0x60 + wordSize * l.slot
  | .relockStep l => 0x70 + wordSize * l.slot
  | .relockPin l => 0x80 + wordSize * l.slot
  | .limit .one .low => 0x0
  | .limit .one .high => 0x4
  | .limit .two .low => 0x8
  | .limit .two .high => 0xC
  | .slowInput i => 0x00 + wordSize * i
  | .slowOutput i => 0x20 + wordSize * i
  | .fastInput c => 0x4C + wordSize * c.index
  | .fastOutput c => 0x54 + wordSize * c.index

def mask : Field → UInt32
  | .features => 0xFFFFF
  | .setpoint _ | .derivative _ | .limit .. | .fastInput _ | .fastOutput _ => 0x3FFF
  | .proportional _ | .integral _ | .relockStep _ => 0xFFFFFF
  | .relockLow _ | .relockHigh _ | .slowInput _ => 0xFFF
  | .relockPin _ => 0x3
  | .slowOutput _ => 0xFF

def shift : Field → UInt32
  | .slowOutput _ => 16
  | _ => 0

theorem offset_mod_wordSize (f : Field) : f.offset % wordSize = 0 := by
  rcases f with _ | _ | _ | _ | _ | _ | _ | _ | _ | ⟨_ | _, _ | _⟩ | _ | _ | _ | _ <;>
    simp [offset, wordSize]

theorem offset_add_wordSize_le (f : Field) : f.offset + wordSize ≤ f.block.size := by
  rcases f with _ | l | l | l | l | l | l | l | l | ⟨_ | _, _ | _⟩ | i | i | c | c <;>
    first
    | decide
    | (have bound := l.slot_lt; simp only [offset, wordSize, block, Block.size]; omega)
    | (simp only [offset, wordSize, block, Block.size]; omega)
    | (cases c <;> decide)

end Field

def featureBit (l : Loop) (f : Feature) : UInt32 := 1 <<< UInt32.ofNat (f.index * 4 + l.slot)

end LockServo.Register

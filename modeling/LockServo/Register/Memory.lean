/-!
# Physical memory

Bytes by physical address, and words of four of them with the lowest byte first. A word write changes
its own four bytes and no other.
-/

namespace LockServo.Register

structure Memory where
  byte : Nat → UInt8

namespace Memory

def zero : Memory := ⟨fun _ => 0⟩

/-- The bytes of a file, with zeros behind its end. -/
def ofBytes (bytes : ByteArray) : Memory := ⟨fun a => bytes.data.getD a 0⟩

def readWord (m : Memory) (address : Nat) : UInt32 :=
  UInt32.ofNat ((m.byte address).toNat + (m.byte (address + 1)).toNat <<< 8 +
    (m.byte (address + 2)).toNat <<< 16 + (m.byte (address + 3)).toNat <<< 24)

def writeWord (m : Memory) (address : Nat) (word : UInt32) : Memory :=
  ⟨fun a =>
    if a = address then UInt8.ofNat word.toNat
    else if a = address + 1 then UInt8.ofNat (word.toNat >>> 8)
    else if a = address + 2 then UInt8.ofNat (word.toNat >>> 16)
    else if a = address + 3 then UInt8.ofNat (word.toNat >>> 24)
    else m.byte a⟩

theorem writeWord_byte_of_outside {m : Memory} {address a : Nat} {word : UInt32}
    (h : a < address ∨ address + 4 ≤ a) : (m.writeWord address word).byte a = m.byte a := by
  unfold writeWord
  grind

theorem readWord_writeWord (m : Memory) (address : Nat) (word : UInt32) :
    (m.writeWord address word).readWord address = word := by
  have bound := word.toNat_lt
  apply UInt32.toNat_inj.mp
  simp [readWord, writeWord]
  omega

theorem readWord_writeWord_of_disjoint {m : Memory} {address other : Nat} {word : UInt32}
    (h : other + 4 ≤ address ∨ address + 4 ≤ other) :
    (m.writeWord address word).readWord other = m.readWord other := by
  simp only [readWord]
  rw [writeWord_byte_of_outside (by omega), writeWord_byte_of_outside (by omega),
    writeWord_byte_of_outside (by omega), writeWord_byte_of_outside (by omega)]

end Memory

/-- A stretch of physical memory behind a page-aligned mapping. -/
structure Mapping where
  base : Nat
  inPage : Nat
  length : Nat
  deriving DecidableEq

namespace Mapping

def ofAddress (page address length : Nat) : Mapping :=
  ⟨address / page * page, address % page, length⟩

/-- The bytes of the pages that the mapping takes up; there is at least one. -/
def pages (page : Nat) (m : Mapping) : Nat := ((m.inPage + m.length - 1) / page + 1) * page

def address (m : Mapping) (offset : Nat) : Nat := m.base + m.inPage + offset

theorem ofAddress_address (page address length offset : Nat) :
    (ofAddress page address length).address offset = address + offset := by
  simp [ofAddress, Mapping.address, Nat.div_add_mod']

end Mapping

end LockServo.Register

import LockServo.Proofs.Register.Bits
import LockServo.Register.Window

/-!
# Words of a window

A window over its memory is an array of words: a write is read back, it touches no other word and
hides an earlier write to the same place. This holds for held and for mapped words alike.
-/

namespace LockServo.Register

theorem Memory.writeWord_writeWord (m : Memory) (address : Nat) (v w : UInt32) :
    (m.writeWord address v).writeWord address w = m.writeWord address w := by
  simp only [Memory.writeWord, Memory.mk.injEq]
  funext a
  grind

theorem Memory.ofNat_readWord (m : Memory) (address : Nat) :
    UInt8.ofNat (m.readWord address).toNat = m.byte address ∧
      UInt8.ofNat ((m.readWord address).toNat >>> 8) = m.byte (address + 1) ∧
      UInt8.ofNat ((m.readWord address).toNat >>> 16) = m.byte (address + 2) ∧
      UInt8.ofNat ((m.readWord address).toNat >>> 24) = m.byte (address + 3) := by
  unfold readWord
  generalize m.byte address = a, m.byte (address + 1) = b, m.byte (address + 2) = c,
    m.byte (address + 3) = d
  have := a.toNat_lt
  have := b.toNat_lt
  have := c.toNat_lt
  have := d.toNat_lt
  have word : (UInt32.ofNat (a.toNat + b.toNat <<< 8 + c.toNat <<< 16 + d.toNat <<< 24)).toNat =
      a.toNat + b.toNat <<< 8 + c.toNat <<< 16 + d.toNat <<< 24 :=
    UInt32.toNat_ofNat_of_lt' (by simp only [Nat.shiftLeft_eq, UInt32.size]; omega)
  rw [word]
  simp only [← UInt8.toNat_inj, UInt8.toNat_ofNat', Nat.shiftLeft_eq, Nat.shiftRight_eq_div_pow]
  omega

theorem Memory.writeWord_readWord (m : Memory) (address : Nat) :
    m.writeWord address (m.readWord address) = m := by
  obtain ⟨first, second, third, fourth⟩ := m.ofNat_readWord address
  unfold writeWord
  rw [first, second, third, fourth]
  obtain ⟨byte⟩ := m
  congr 1
  funext a
  grind

theorem Window.isWord_iff {w : Window} {offset : Nat} :
    w.isWord offset = true ↔ offset % wordSize = 0 ∧ offset + wordSize ≤ w.length := by
  simp [Window.isWord]

/-- A window that could be mapped lies at a word's address, on the page of it. -/
theorem Window.eq_of_map {ν : Type} {page : Nat} {device : Except FileCause Memory} {name : String}
    {address length : Nat} {w : Window} (h : (map (ν := ν) page device name address length).value = .ok w) :
    address % wordSize = 0 ∧ w = ⟨name, .mapped (.ofAddress page address length)⟩ := by
  unfold map at h
  split at h
  · cases h
  · rename_i aligned
    cases device with
    | error cause => cases h
    | ok memory =>
      simp only [Logged.bind_value] at h
      split at h
      · cases h
      · exact ⟨Decidable.not_not.mp aligned, (Except.ok.inj h).symm⟩

namespace View

/-! ## Reading what was written -/

@[simp] theorem length_set (v : View) (offset : Nat) (word : UInt32) :
    (v.set offset word).window.length = v.window.length := by
  unfold set
  split <;> rename_i h <;> simp [Window.length, h]

theorem get_set_self {v : View} {offset : Nat} (h : v.window.isWord offset = true) (word : UInt32) :
    (v.set offset word).get offset = word := by
  obtain ⟨aligned, inside⟩ := Window.isWord_iff.mp h
  unfold get set
  cases hc : v.window.cells with
  | held words =>
    have bound : offset / wordSize < words.size := by
      simp only [Window.length, hc, wordSize] at inside aligned ⊢
      omega
    simp [bound]
  | mapped mapping => simp [hc, Memory.readWord_writeWord]

theorem get_set_of_ne {v : View} {offset other : Nat} (h : v.window.isWord offset = true)
    (h' : v.window.isWord other = true) (ne : other ≠ offset) (word : UInt32) :
    (v.set offset word).get other = v.get other := by
  obtain ⟨aligned, -⟩ := Window.isWord_iff.mp h
  obtain ⟨aligned', -⟩ := Window.isWord_iff.mp h'
  simp only [wordSize] at aligned aligned'
  unfold get set
  cases hc : v.window.cells with
  | held words =>
    have index : offset / wordSize ≠ other / wordSize := by
      simp only [wordSize]
      omega
    simp [Array.getElem?_setIfInBounds_ne index]
  | mapped mapping =>
    have apart : mapping.address other + 4 ≤ mapping.address offset ∨
        mapping.address offset + 4 ≤ mapping.address other := by
      simp only [Mapping.address]
      omega
    simp [hc, Memory.readWord_writeWord_of_disjoint apart]

theorem set_set (v : View) (offset : Nat) (first second : UInt32) :
    (v.set offset first).set offset second = v.set offset second := by
  unfold set
  cases hc : v.window.cells with
  | held words => simp
  | mapped mapping => simp [hc, Memory.writeWord_writeWord]

/-- Storing the word that is there already changes nothing. -/
theorem set_get {v : View} {offset : Nat} (h : v.window.isWord offset = true) :
    v.set offset (v.get offset) = v := by
  obtain ⟨⟨name, cells⟩, memory⟩ := v
  obtain ⟨aligned, inside⟩ := Window.isWord_iff.mp h
  cases cells with
  | held words =>
    have bound : offset / wordSize < words.size := by
      simp only [Window.length, wordSize] at inside aligned ⊢
      omega
    have same : words.setIfInBounds (offset / wordSize) words[offset / wordSize] = words := by
      rw [Array.setIfInBounds_def, dif_pos bound, Array.set_getElem_self]
    simp [get, set, Array.getElem?_eq_getElem bound, same]
  | mapped mapping => simp [get, set, Memory.writeWord_readWord]

/-! ## Accesses that are not refused -/

variable {v : View} {offset : Nat}

theorem check_of_isWord (h : v.window.isWord offset = true) : v.check offset = .ok () := by
  simp [check, h]

theorem read_of_isWord (h : v.window.isWord offset = true) : v.read offset = .ok (v.get offset) := by
  rw [read, check_of_isWord h]
  rfl

theorem modify_of_isWord (h : v.window.isWord offset = true) (f : UInt32 → UInt32) :
    v.modify offset f = .ok (f (v.get offset), v.set offset (f (v.get offset))) := by
  rw [modify, check_of_isWord h]
  rfl

theorem getField_of_isWord (h : v.window.isWord offset = true) (mask shift : UInt32) :
    v.getField offset mask shift = .ok (Register.getField (v.get offset) mask shift) := by
  rw [getField, read_of_isWord h]
  rfl

theorem setField_of_isWord (h : v.window.isWord offset = true) (value mask shift : UInt32) :
    v.setField offset value mask shift =
      .ok (v.set offset (Register.setField (v.get offset) value mask shift)) := by
  rw [setField, modify_of_isWord h]
  rfl

theorem setBits_of_isWord (h : v.window.isWord offset = true) (bits mask : UInt32) :
    v.setBits offset bits mask = .ok (v.set offset (Register.setBits (v.get offset) bits mask)) := by
  rw [setBits, modify_of_isWord h]
  rfl

theorem clearBits_of_isWord (h : v.window.isWord offset = true) (bits mask : UInt32) :
    v.clearBits offset bits mask =
      .ok (v.set offset (Register.clearBits (v.get offset) bits mask)) := by
  rw [clearBits, modify_of_isWord h]
  rfl

theorem bitsSet_of_isWord (h : v.window.isWord offset = true) (bits mask : UInt32) :
    v.bitsSet offset bits mask = .ok (Register.bitsSet (v.get offset) bits mask) := by
  rw [bitsSet, read_of_isWord h]
  rfl

end View

end LockServo.Register

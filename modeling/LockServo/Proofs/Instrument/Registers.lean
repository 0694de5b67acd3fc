import LockServo.Instrument.Basic
import LockServo.Proofs.Register.Place
import LockServo.Proofs.Register.View

/-!
# Registers of an instrument

The words of the three blocks as one array, on held and on mapped windows. On a sound instrument a
write changes the word it names and no other, so the sixty places can be written independently.
-/

namespace LockServo

open Register

namespace Register

def Block.IsWord (b : Block) (offset : Nat) : Prop :=
  offset % wordSize = 0 ∧ offset + wordSize ≤ b.size

instance (b : Block) (offset : Nat) : Decidable (b.IsWord offset) :=
  inferInstanceAs (Decidable (_ ∧ _))

theorem Block.apart_of_ne {b c : Block} (ne : b ≠ c) :
    b.base + b.size ≤ c.base ∨ c.base + c.size ≤ b.base := by
  cases b <;> cases c <;> first | contradiction | decide

theorem Field.isWord (f : Field) : f.block.IsWord f.offset :=
  ⟨f.offset_mod_wordSize, f.offset_add_wordSize_le⟩

end Register

namespace Instrument

variable {ν : Type}

/-- Every block has its documented length, and no two mapped blocks have a byte in common. -/
structure Sound (i : Instrument ν) : Prop where
  fullSize : i.FullSize
  apart : ∀ {b c : Block} {m n : Mapping}, b ≠ c → (i.window b).cells = .mapped m →
    (i.window c).cells = .mapped n → m.address m.length ≤ n.address 0 ∨ n.address n.length ≤ m.address 0

def word (i : Instrument ν) (b : Block) (offset : Nat) : UInt32 := (i.view b).get offset

def setWord (i : Instrument ν) (b : Block) (offset : Nat) (word : UInt32) : Instrument ν :=
  i.setView b ((i.view b).set offset word)

theorem isWord_window {i : Instrument ν} (h : i.FullSize) {b : Block} {offset : Nat}
    (hw : b.IsWord offset) : (i.view b).window.isWord offset = true := by
  rw [Window.isWord_iff, view, h b]
  exact hw

theorem length_of_mapped {i : Instrument ν} (h : i.FullSize) {b : Block} {m : Mapping}
    (hm : (i.window b).cells = .mapped m) : m.length = b.size := by
  rw [← h b, Window.length, hm]

theorem words_eq_map {i : Instrument ν} (h : i.FullSize) (b : Block) :
    i.words b = (List.range (b.size / wordSize)).map fun k => i.word b (wordSize * k) := by
  rw [words, View.words, view, h b]
  rfl

/-! ## What a write keeps -/

theorem window_setView_of_ne {b c : Block} (ne : b ≠ c) (i : Instrument ν) (v : View) :
    (i.setView b v).window c = i.window c := by
  cases b <;> cases c <;> first | rfl | contradiction

@[simp] theorem setView_setView (i : Instrument ν) (b : Block) (v w : View) :
    (i.setView b v).setView b w = i.setView b w := by
  cases b <;> rfl

@[simp] theorem setView_calibration (i : Instrument ν) (b : Block) (v : View) :
    (i.setView b v).calibration = i.calibration := by
  cases b <;> rfl

theorem view_setView_window (i : Instrument ν) (b : Block) (v : View) :
    (i.setView b v).window b = v.window := by
  cases b <;> rfl

@[simp] theorem setWord_calibration (i : Instrument ν) (b : Block) (offset : Nat) (word : UInt32) :
    (i.setWord b offset word).calibration = i.calibration :=
  setView_calibration i b _

theorem setWord_setWord (i : Instrument ν) (b : Block) (offset : Nat) (first second : UInt32) :
    (i.setWord b offset first).setWord b offset second = i.setWord b offset second := by
  simp [setWord, View.set_set]

theorem setWord_word {i : Instrument ν} (h : i.FullSize) {b : Block} {offset : Nat}
    (hw : b.IsWord offset) : i.setWord b offset (i.word b offset) = i := by
  rw [setWord, Instrument.word, View.set_get (isWord_window h hw)]
  cases b <;> rfl

theorem setWord_fullSize {i : Instrument ν} (h : i.FullSize) (b : Block) (offset : Nat)
    (word : UInt32) : (i.setWord b offset word).FullSize := by
  intro c
  by_cases hbc : b = c
  · subst hbc
    rw [setWord, view_setView_window, View.length_set]
    exact h b
  · rw [setWord, window_setView_of_ne hbc]
    exact h c

theorem mapped_of_setWord {i : Instrument ν} {b c : Block} {offset : Nat} {word : UInt32}
    {m : Mapping} (h : ((i.setWord b offset word).window c).cells = .mapped m) :
    (i.window c).cells = .mapped m := by
  by_cases hbc : b = c
  · subst hbc
    rw [setWord, view_setView_window, View.set] at h
    change (i.view b).window.cells = _
    split at h
    · cases h
    · exact h
  · rwa [setWord, window_setView_of_ne hbc] at h

theorem setWord_sound {i : Instrument ν} (h : i.Sound) (b : Block) (offset : Nat) (word : UInt32) :
    (i.setWord b offset word).Sound where
  fullSize := setWord_fullSize h.fullSize b offset word
  apart ne hb hc := h.apart ne (mapped_of_setWord hb) (mapped_of_setWord hc)

theorem word_setWord_self {i : Instrument ν} (h : i.FullSize) {b : Block} {offset : Nat}
    (hw : b.IsWord offset) (word : UInt32) : (i.setWord b offset word).word b offset = word := by
  rw [Instrument.word, setWord, view_setView]
  exact View.get_set_self (isWord_window h hw) word

theorem word_setWord_of_block_ne {i : Instrument ν} (h : i.Sound) {b c : Block} (ne : b ≠ c)
    {offset other : Nat} (hw : b.IsWord offset) (hw' : c.IsWord other) (word : UInt32) :
    (i.setWord b offset word).word c other = i.word c other := by
  have window : ((i.setWord b offset word).view c).window = (i.view c).window :=
    window_setView_of_ne ne i _
  have memory : ((i.setWord b offset word).view c).memory = ((i.view b).set offset word).memory := by
    cases b <;> rfl
  rw [Instrument.word, Instrument.word, View.get, View.get, window, memory]
  cases hc : (i.view c).window.cells with
  | held words => rfl
  | mapped n =>
    cases hb : (i.view b).window.cells with
    | held words =>
      simp only [View.set, hb]
      rfl
    | mapped m =>
      have hm : m.length = b.size := length_of_mapped h.fullSize hb
      have hn : n.length = c.size := length_of_mapped h.fullSize hc
      have inside : offset + 4 ≤ m.length := hm ▸ hw.2
      have inside' : other + 4 ≤ n.length := hn ▸ hw'.2
      have apart : n.address other + 4 ≤ m.address offset ∨ m.address offset + 4 ≤ n.address other := by
        have := h.apart ne hb hc
        simp only [Mapping.address] at this ⊢
        omega
      simp only [View.set, hb]
      exact Memory.readWord_writeWord_of_disjoint apart

theorem word_setWord {i : Instrument ν} (h : i.Sound) {b c : Block} {offset other : Nat}
    (hw : b.IsWord offset) (hw' : c.IsWord other) (word : UInt32) :
    (i.setWord b offset word).word c other =
      if b = c ∧ offset = other then word else i.word c other := by
  by_cases hbc : b = c
  · subst hbc
    by_cases ho : offset = other
    · subst ho
      rw [word_setWord_self h.fullSize hw, if_pos ⟨rfl, rfl⟩]
    · rw [if_neg (fun same => ho same.2), Instrument.word, setWord, view_setView]
      exact View.get_set_of_ne (isWord_window h.fullSize hw) (isWord_window h.fullSize hw')
        (Ne.symm ho) word
  · rw [if_neg (fun same => hbc same.1), word_setWord_of_block_ne h hbc hw hw']

/-! ## Instruments that are brought up -/

theorem blank_sound (calibration : Calibration ν) : (blank calibration).Sound where
  fullSize := blank_fullSize calibration
  apart {b _ _ _} _ hb _ := by cases b <;> cases hb

theorem blank_word (c : Calibration ν) (b : Block) (offset : Nat) :
    (blank c).word b offset = 0 := by
  cases b <;> simp [word, view, window, blank, View.get, Window.simulated, Array.getElem?_replicate] <;>
    split <;> rfl

end Instrument

end LockServo

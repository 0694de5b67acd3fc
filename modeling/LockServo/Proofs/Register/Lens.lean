import Mathlib.Algebra.Group.Nat.Defs
import LockServo.Proofs.Register.Bits

/-!
# Fields as lenses

Reading and writing the field under a mask obey the laws of a lens, whatever the mask: it may have
holes, and the shift may push some of it past the word. Fields whose shifted masks share no bit do not
see each other.
-/

namespace LockServo.Register

/-- The bits of a field that stay inside the word under a shift. -/
def lowBits (shift : UInt32) : UInt32 := UInt32.ofNat (2 ^ (32 - shift.toNat) - 1)

theorem bit_lowBits (s : UInt32) (k : Nat) : bit (lowBits s) k = decide (k < 32 - s.toNat) := by
  apply bit_of_toNat_eq
  have small : 2 ^ (32 - s.toNat) ≤ 2 ^ 32 := Nat.pow_le_pow_right Nat.two_pos (Nat.sub_le _ _)
  have positive := Nat.two_pow_pos (32 - s.toNat)
  rw [Nat.one_shiftLeft]
  exact UInt32.toNat_ofNat_of_lt' (show _ < 2 ^ 32 by omega)

section

variable {s : UInt32} (hs : s.toNat < 32) (word value m : UInt32)
include hs

/-- What a write stores is read back, but for the bits that were pushed past the word. -/
theorem getField_setField : getField (setField word value m s) m s = value &&& m &&& lowBits s := by
  apply eq_of_bit
  intro k _
  rw [bit_getField hs, bit_and, bit_and, bit_lowBits]
  by_cases inside : s.toNat + k < 32
  · have kept : k < 32 - s.toNat := by omega
    rw [bit_setField hs _ _ _ inside, Nat.add_sub_cancel_left, decide_eq_true kept, Bool.and_true]
    by_cases masked : bit m k = true
    · rw [if_pos ⟨Nat.le_add_right _ _, masked⟩]
    · rw [Bool.eq_false_iff.mpr masked, Bool.and_false, Bool.and_false]
  · have lost : ¬ k < 32 - s.toNat := by omega
    rw [bit_of_le (Nat.not_lt.mp inside), decide_eq_false lost, Bool.false_and, Bool.and_false]

theorem setField_getField : setField word (getField word m s) m s = word := by
  apply eq_of_bit
  intro k hk
  rw [bit_setField hs _ _ _ hk]
  split
  · rename_i inside
    rw [bit_getField hs, Nat.add_sub_cancel' inside.1, inside.2, Bool.and_true]
  · rfl

theorem setField_setField (later : UInt32) :
    setField (setField word value m s) later m s = setField word later m s := by
  apply eq_of_bit
  intro k hk
  rw [bit_setField hs _ _ _ hk, bit_setField hs _ _ _ hk, bit_setField hs _ _ _ hk]
  split <;> rfl

theorem bit_shifted {k : Nat} (hk : k < 32) :
    bit (m <<< s) k = true ↔ s.toNat ≤ k ∧ bit m (k - s.toNat) = true := by
  rw [bit_shiftLeft hs m hk, Bool.and_eq_true, decide_eq_true_eq]

theorem bit_setField_of_shifted_eq_false {k : Nat} (outside : bit (m <<< s) k = false) :
    bit (setField word value m s) k = bit word k := by
  rcases Nat.lt_or_ge k 32 with hk | beyond
  · rw [bit_setField hs _ _ _ hk, if_neg]
    rw [← bit_shifted hs m hk, outside]
    exact Bool.false_ne_true
  · rw [bit_of_le beyond, bit_of_le beyond]

end

/-! ## Fields that share no bit -/

section

variable {s t : UInt32} (hs : s.toNat < 32) (ht : t.toNat < 32) {m n : UInt32}
  (apart : (m <<< s) &&& (n <<< t) = 0)
include hs apart

theorem bit_shifted_eq_false {k : Nat} (hk : k < 32) (inside : s.toNat ≤ k ∧ bit m (k - s.toNat) = true) :
    bit (n <<< t) k = false := by
  have shared : bit ((m <<< s) &&& (n <<< t)) k = false := by rw [apart, bit_zero]
  rwa [bit_and, (bit_shifted hs m hk).mpr inside, Bool.true_and] at shared

include ht

theorem getField_setField_of_apart (word value : UInt32) :
    getField (setField word value n t) m s = getField word m s := by
  apply eq_of_bit
  intro k _
  rw [bit_getField hs, bit_getField hs]
  by_cases inside : s.toNat + k < 32
  · by_cases masked : bit m k = true
    · rw [bit_setField_of_shifted_eq_false ht]
      refine bit_shifted_eq_false hs apart inside ⟨Nat.le_add_right _ _, ?_⟩
      rwa [Nat.add_sub_cancel_left]
    · rw [Bool.eq_false_iff.mpr masked, Bool.and_false, Bool.and_false]
  · rw [bit_of_le (Nat.not_lt.mp inside), bit_of_le (Nat.not_lt.mp inside)]

theorem setField_comm (word value other : UInt32) :
    setField (setField word value m s) other n t = setField (setField word other n t) value m s := by
  apply eq_of_bit
  intro k hk
  by_cases inside : s.toNat ≤ k ∧ bit m (k - s.toNat) = true
  · rw [bit_setField_of_shifted_eq_false ht _ _ _ (bit_shifted_eq_false hs apart hk inside),
      bit_setField hs _ _ _ hk, bit_setField hs _ _ _ hk, if_pos inside, if_pos inside]
  · rw [bit_setField hs (setField word other n t) _ _ hk, if_neg inside, bit_setField ht _ _ _ hk,
      bit_setField ht _ _ _ hk, bit_setField hs _ _ _ hk, if_neg inside]

end

/-- A field under any mask and any shift below 32 is a lens on its word. A write changes no bit outside the
shifted mask, and two fields without a common bit can be written in either order, each unseen by the other. -/
theorem fields_are_lenses {s : UInt32} (hs : s.toNat < 32) (w v v' m : UInt32) :
    getField (setField w v m s) m s = v &&& m &&& UInt32.ofNat (2 ^ (32 - s.toNat) - 1) ∧
    setField w (getField w m s) m s = w ∧
    setField (setField w v m s) v' m s = setField w v' m s ∧
    (∀ k, bit (m <<< s) k = false → bit (setField w v m s) k = bit w k) ∧
    ∀ m' s' : UInt32, s'.toNat < 32 → (m <<< s) &&& (m' <<< s') = 0 →
      setField (setField w v m s) v' m' s' = setField (setField w v' m' s') v m s ∧
      getField (setField w v' m' s') m s = getField w m s ∧
      getField (setField w v m s) m' s' = getField w m' s' := by
  refine ⟨getField_setField hs w v m, setField_getField hs w m, setField_setField hs w v m v', ?_, ?_⟩
  · intro k outside
    exact bit_setField_of_shifted_eq_false hs w v m outside
  · intro m' s' hs' apart
    have apart' : (m' <<< s') &&& (m <<< s) = 0 := by rw [UInt32.and_comm, apart]
    exact ⟨setField_comm hs hs' apart w v v', getField_setField_of_apart hs hs' apart w v',
      getField_setField_of_apart hs' hs apart' w v⟩

/-- A mask with holes, whose upper half the shift pushes past the word: only the lower half comes back, and
a field in its holes keeps its value. -/
theorem fields_are_lenses_past_the_word :
    (24 : UInt32).toNat < 32 ∧ getField (setField 0x12345678 0xFFFF 0xA5A5 24) 0xA5A5 24 = 0xA5 ∧
      ((0xA5A5 : UInt32) <<< 24) &&& ((0x5A : UInt32) <<< 24) = 0 ∧
      getField (setField 0x12345678 0xFFFF 0xA5A5 24) 0x5A 24 = 0x12 := by
  have shift : (24 : UInt32).toNat < 32 := by decide
  have apart : ((0xA5A5 : UInt32) <<< 24) &&& ((0x5A : UInt32) <<< 24) = 0 := by decide
  obtain ⟨read, -, -, -, others⟩ := fields_are_lenses shift 0x12345678 0xFFFF 0 0xA5A5
  obtain ⟨-, -, unseen⟩ := others 0x5A 24 shift apart
  exact ⟨shift, read.trans (by decide), apart, unseen.trans (by decide)⟩

end LockServo.Register

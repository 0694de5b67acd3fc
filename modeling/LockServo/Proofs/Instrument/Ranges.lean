import LockServo.Proofs.Conversion.Order
import LockServo.Proofs.Instrument.Calls

/-!
# Ranges of registers

What holds of zeroed registers and is kept by every call: no place holds more than its setter can store
there, and bits that belong to no place are off. A slow output has room for more counts than the converter
has; that it stays at the last one is up to the encoder.
-/

namespace LockServo

open Arithmetic Register

/-! ## Bounds of places -/

namespace Register

/-- The largest count that calls leave in a field of a fresh instrument. Only hardware writes into the
fields of the converters. -/
def Field.most : Field → Nat
  | .features => 0xFFFFF
  | .setpoint _ | .derivative _ | .limit .. => 0x3FFF
  | .proportional _ | .integral _ | .relockStep _ => 0xFFFFFF
  | .relockLow _ | .relockHigh _ => 0xFFF
  | .relockPin _ => 3
  | .slowOutput _ => 156
  | .slowInput _ | .fastInput _ | .fastOutput _ => 0

def Place.most : Place → Nat
  | .number f _ => f.most
  | .switch .. => 1

theorem Place.most_eq (p : Place) :
    (∃ k, p = .number (.slowOutput k)) ∨ p.most = p.mask.toNat := by
  cases p with
  | switch => exact .inr rfl
  | number f adjustable =>
    cases f with
    | slowOutput k => exact .inl ⟨k, rfl⟩
    | features | slowInput | fastInput | fastOutput => cases adjustable
    | _ => exact .inr rfl

end Register

theorem Setter.count_slowOutput_le {s : Setter Binary64} (accepted : s.refusal? = none) {k : Fin 4}
    (target : .number (.slowOutput k) ∈ s.targets) (c : Calibration Binary64) :
    (s.count c (.number (.slowOutput k))).toNat ≤ 156 := by
  rw [mem_targets] at target
  cases s with
  | pinValue q v =>
    cases q with
    | input => cases accepted
    | output =>
      exact Span.outputCode_le (unsigned_eq_none_iff.mp accepted).1
  | resetPins => exact Nat.zero_le _
  | features => obtain ⟨f, h⟩ := target; cases h
  | _ => cases target

theorem Setter.count_le {s : Setter Binary64} (accepted : s.refusal? = none) {p : Place}
    (target : p ∈ s.targets) (c : Calibration Binary64) : (s.count c p &&& p.mask).toNat ≤ p.most := by
  rw [UInt32.toNat_and]
  rcases p.most_eq with ⟨k, rfl⟩ | masked
  · exact Nat.and_le_left.trans (count_slowOutput_le accepted target c)
  · rw [masked]
    exact Nat.and_le_right

theorem Call.stores_le (c : Calibration Binary64) (call : Call Binary64) :
    ∀ store ∈ call.stores c, (store.2 &&& store.1.mask).toNat ≤ store.1.most := by
  have bounded : ∀ s : Setter Binary64, s.refusal? = none → ∀ store ∈ s.counts c,
      (store.2 &&& store.1.mask).toNat ≤ store.1.most := by
    intro s accepted store member
    obtain ⟨target, count⟩ := Setter.mem_targets_of_mem_counts member
    rw [count]
    exact Setter.count_le accepted target c
  intro store member
  cases call with
  | ask | exchange => cases member
  | store s =>
    rw [stores] at member
    split at member
    · cases member
    · rename_i accepted
      exact bounded s (Option.not_isSome_iff_eq_none.mp accepted) store member
  | apply set =>
    obtain ⟨s, inside, member⟩ := List.mem_flatMap.mp member
    exact bounded s (ParameterSet.refusal?_of_mem_accepted inside) store member

/-! ## The invariant -/

namespace Instrument

/-- No place holds more than a call can store there, and every other bit is off. -/
structure Orderly {ν : Type} (i : Instrument ν) : Prop where
  sound : i.Sound
  within : ∀ p : Place, (i.value p).toNat ≤ p.most
  elsewhere : ∀ (b : Block) (offset k : Nat), b.IsWord offset →
    (∀ p : Place, ¬ p.Covers b offset k) → bit (i.word b offset) k = false

theorem blank_orderly {ν : Type} (c : Calibration ν) : (blank c).Orderly where
  sound := blank_sound c
  within p := by
    rw [value, blank_word, Place.read, getField]
    simp
  elsewhere b offset k _ _ := by rw [blank_word, bit_zero]

namespace Orderly

section

variable {ν : Type} {i : Instrument ν}

theorem put (h : i.Orderly) {p : Place} {count : UInt32} (small : (count &&& p.mask).toNat ≤ p.most) :
    (i.put p count).Orderly where
  sound := put_sound h.sound p count
  within q := by
    rw [value_put h.sound]
    split
    · rename_i same
      subst same
      exact small
    · exact h.within q
  elsewhere b offset k inside uncovered := by
    rw [bit_put h.sound count inside (uncovered p)]
    exact h.elsewhere b offset k inside uncovered

theorem putAll (h : i.Orderly) {stores : List (Place × UInt32)}
    (small : ∀ store ∈ stores, (store.2 &&& store.1.mask).toNat ≤ store.1.most) :
    (i.putAll stores).Orderly := by
  induction stores generalizing i with
  | nil => exact h
  | cons store rest ih =>
    exact ih (h.put (small store List.mem_cons_self)) fun s member =>
      small s (List.mem_cons_of_mem store member)

theorem recalibrate (h : i.Orderly) (c : Calibration ν) : { i with calibration := c }.Orderly where
  sound := sound_recalibrate h.sound c
  within p := by
    rw [value_recalibrate]
    exact h.within p
  elsewhere b offset k inside uncovered := by
    rw [word_recalibrate]
    exact h.elsewhere b offset k inside uncovered

end

/-- No call leaves the bounds, be it accepted, refused or stopped part of the way. -/
theorem after {i : Instrument Binary64} (h : i.Orderly) (call : Call Binary64) : (call.after i).Orderly :=
  (h.putAll (call.stores_le i.calibration)).recalibrate _

theorem afterAll {i : Instrument Binary64} (h : i.Orderly) (calls : List (Call Binary64)) :
    (Call.afterAll calls i).Orderly := by
  induction calls generalizing i with
  | nil => exact h
  | cons call rest ih => exact ih (h.after call)

/-! ## Whole words -/

section

variable {ν : Type} {i : Instrument ν}

theorem word_eq_zero (h : i.Orderly) {b : Block} {offset : Nat} (inside : b.IsWord offset)
    (uncovered : ∀ (p : Place) (k : Nat), ¬ p.Covers b offset k) : i.word b offset = 0 := by
  apply eq_of_bit
  intro k _
  rw [h.elsewhere b offset k inside fun p => uncovered p k, bit_zero]

/-- The word of a field that a setter stores as a whole is the count in it and nothing else. -/
theorem word_eq (h : i.Orderly) {f : Field} (adjustable : f.isAdjustable = true) :
    i.word f.block f.offset = i.value (.number f adjustable) <<< f.shift := by
  have shift : f.shift.toNat < 32 := (Place.number f adjustable).shift_lt
  have narrow : ∀ k, f.width ≤ k → bit (i.value (.number f adjustable)) k = false := by
    intro k beyond
    have outside : ¬ k < (Place.number f adjustable).width := Nat.not_lt.mpr beyond
    rw [value, Place.bit_read, decide_eq_false outside, Bool.and_false]
  apply eq_of_bit
  intro k hk
  rw [bit_shiftLeft shift _ hk]
  by_cases covered : (Place.number f adjustable).Covers f.block f.offset k
  · have low : f.shift.toNat ≤ k := covered.2.2.1
    rw [bit_value covered, decide_eq_true low, Bool.true_and]
    rfl
  · have alone : ∀ p : Place, ¬ p.Covers f.block f.offset k := by
      intro p covers
      have same : p.field = f := Field.eq_of_offset covers.1 covers.2.1
      rw [← Place.eq_number_iff adjustable] at same
      exact covered (same ▸ covers)
    rw [h.elsewhere _ _ k f.isWord alone]
    by_cases low : f.shift.toNat ≤ k
    · have beyond : f.width ≤ k - f.shift.toNat := by
        by_contra within
        exact covered ⟨rfl, rfl, low, show k < f.shift.toNat + f.width by omega⟩
      rw [narrow _ beyond, Bool.and_false]
    · rw [decide_eq_false low, Bool.false_and]

theorem toNat_word (h : i.Orderly) {f : Field} (adjustable : f.isAdjustable = true) :
    (i.word f.block f.offset).toNat = (i.value (.number f adjustable)).toNat * 2 ^ f.shift.toNat := by
  have fits := f.shift_add_width_le
  have shift : f.shift.toNat < 32 := (Place.number f adjustable).shift_lt
  have narrow : (i.value (.number f adjustable)).toNat < 2 ^ f.width := Place.toNat_read_lt _ _
  have small : (i.value (.number f adjustable)).toNat * 2 ^ f.shift.toNat < 2 ^ 32 := by
    calc (i.value (.number f adjustable)).toNat * 2 ^ f.shift.toNat < 2 ^ f.width * 2 ^ f.shift.toNat :=
          Nat.mul_lt_mul_of_pos_right narrow (Nat.two_pow_pos _)
      _ = 2 ^ (f.shift.toNat + f.width) := by rw [← Nat.pow_add, Nat.add_comm]
      _ ≤ 2 ^ 32 := Nat.pow_le_pow_right Nat.two_pos fits
  rw [h.word_eq adjustable, UInt32.toNat_shiftLeft, Nat.shiftLeft_eq,
    Nat.mod_eq_of_lt shift, Nat.mod_eq_of_lt small]

theorem features_word_le (h : i.Orderly) : (i.word Field.features.block Field.features.offset).toNat ≤ 0xFFFFF := by
  suffices below : (i.word Field.features.block Field.features.offset).toNat < 2 ^ 20 by omega
  apply Nat.lt_pow_two_of_testBit
  intro k high
  change bit _ k = false
  refine h.elsewhere _ _ k Field.features.isWord fun p covers => ?_
  cases p with
  | number f adjustable =>
    obtain rfl : f = .features := Field.eq_of_offset covers.1 covers.2.1
    cases adjustable
  | switch l f =>
    have place := position_lt l f
    obtain ⟨-, -, -, above⟩ := covers
    rw [Place.shift_switch] at above
    change k < position l f + 1 at above
    omega

/-- Every word of a field is a count of at most its bound, at the field's shift. -/
theorem word_le (h : i.Orderly) (f : Field) :
    ∃ n ≤ f.most, (i.word f.block f.offset).toNat = n * 2 ^ f.shift.toNat := by
  cases adjustable : f.isAdjustable with
  | true => exact ⟨_, h.within (.number f adjustable), h.toNat_word adjustable⟩
  | false =>
    have zero : f ≠ .features → (i.word f.block f.offset).toNat = 0 := by
      intro other
      rw [h.word_eq_zero f.isWord]
      · rfl
      · intro p k covers
        have same : p.field = f := Field.eq_of_offset covers.1 covers.2.1
        cases p with
        | switch => exact other same.symm
        | number g hg =>
          obtain rfl : g = f := same
          exact Bool.noConfusion (hg.symm.trans adjustable)
    cases f with
    | features => exact ⟨_, h.features_word_le, (Nat.mul_one _).symm⟩
    | slowInput | fastInput | fastOutput =>
      exact ⟨0, Nat.zero_le _, (zero nofun).trans (Nat.zero_mul _).symm⟩
    | _ => cases adjustable

theorem reserved_word_eq_zero (h : i.Orderly) {b : Block} {offset : Nat} (inside : b.IsWord offset)
    (reserved : ∀ f : Field, f.block = b → f.offset ≠ offset) : i.word b offset = 0 :=
  h.word_eq_zero inside fun p _ covers => reserved p.field covers.1 covers.2.1

end

end Orderly

end Instrument

end LockServo

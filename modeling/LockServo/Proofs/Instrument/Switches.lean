import Mathlib.Data.Nat.Bitwise
import LockServo.Instrument.Loop
import LockServo.Proofs.Register.Place

/-!
# Feature switches

The feature word as twenty switches. Changing one feature, or all features of a loop at once, is the
same as writing the switches one by one, and the set of a loop's features is read off its switches.
-/

namespace LockServo

open Register

theorem Feature.exists_index_eq {k : Nat} (h : k < 5) : ∃ f : Feature, f.index = k := by
  have found : ∀ k : Fin 5, ∃ f ∈ Feature.all, f.index = k := by decide
  obtain ⟨f, -, index⟩ := found ⟨k, h⟩
  exact ⟨f, index⟩

namespace FeatureSet

theorem contains_eq_testBit (s : FeatureSet) (f : Feature) :
    s.contains f = s.bits.toNat.testBit f.index := by
  have one : f.bit.toNat = 2 ^ f.index := by cases f <;> rfl
  have masked : (s.bits &&& f.bit).toNat = (s.bits.toNat.testBit f.index).toNat * 2 ^ f.index := by
    rw [UInt8.toNat_and, one, Nat.and_two_pow]
  rw [contains, Bool.eq_iff_iff, bne_iff_ne, ne_eq, ← UInt8.toNat_inj, masked]
  cases s.bits.toNat.testBit f.index <;> simp

theorem contains_empty (f : Feature) : empty.contains f = false := by
  cases f <;> rfl

theorem contains_insert (s : FeatureSet) (f g : Feature) :
    (s.insert f).contains g = (s.contains g || decide (f = g)) := by
  have one : f.bit.toNat = 2 ^ f.index := by cases f <;> rfl
  have same : decide (f.index = g.index) = decide (f = g) :=
    decide_eq_decide.mpr ⟨Feature.index_injective, congrArg Feature.index⟩
  rw [contains_eq_testBit, contains_eq_testBit, insert, UInt8.toNat_or, Nat.testBit_or, one,
    Nat.testBit_two_pow, same]

/-- The bits that features own are determined by the features in the set. -/
theorem restrict_eq_of_contains {s t : FeatureSet} (same : ∀ f, s.contains f = t.contains f) :
    s.restrict = t.restrict := by
  have ones : known.toNat = 2 ^ 5 - 1 := rfl
  unfold restrict
  congr 1
  apply UInt8.toNat_inj.mp
  apply Nat.eq_of_testBit_eq
  intro k
  rw [UInt8.toNat_and, UInt8.toNat_and, Nat.testBit_and, Nat.testBit_and, ones,
    Nat.testBit_two_pow_sub_one]
  by_cases within : k < 5
  · obtain ⟨f, rfl⟩ := Feature.exists_index_eq within
    rw [← contains_eq_testBit, ← contains_eq_testBit, same f]
  · rw [decide_eq_false within, Bool.and_false, Bool.and_false]

theorem restrict_insert (s : FeatureSet) (f : Feature) : (s.insert f).restrict = s.restrict.insert f := by
  have own : f.bit &&& known = f.bit := by cases f <;> rfl
  unfold restrict insert
  congr 1
  apply UInt8.toNat_inj.mp
  rw [UInt8.toNat_and, UInt8.toNat_or, Nat.and_or_distrib_right, ← UInt8.toNat_and,
    ← UInt8.toNat_and f.bit, own, UInt8.toNat_or]

theorem restrict_ofList (fs : List Feature) : (ofList fs).restrict = ofList fs := by
  have fold : ∀ s : FeatureSet, (fs.foldl insert s).restrict = fs.foldl insert s.restrict := by
    induction fs with
    | nil => exact fun _ => rfl
    | cons f rest ih =>
      intro s
      rw [List.foldl_cons, ih, restrict_insert, List.foldl_cons]
  exact fold empty

theorem contains_foldl_insert (fs : List Feature) (s : FeatureSet) (g : Feature) :
    (fs.foldl insert s).contains g = (s.contains g || decide (g ∈ fs)) := by
  induction fs generalizing s with
  | nil => simp
  | cons f rest ih =>
    rw [List.foldl_cons, ih, contains_insert]
    by_cases hfg : f = g
    · simp [hfg]
    · simp [hfg, Ne.symm hfg]

theorem contains_ofList (fs : List Feature) (g : Feature) :
    (ofList fs).contains g = decide (g ∈ fs) := by
  rw [ofList, contains_foldl_insert, contains_empty, Bool.false_or]

theorem ofList_filter_contains (s : FeatureSet) : ofList (Feature.all.filter s.contains) = s.restrict := by
  rw [← restrict_ofList]
  apply restrict_eq_of_contains
  intro f
  rw [contains_ofList, Bool.eq_iff_iff, decide_eq_true_eq, List.mem_filter]
  exact and_iff_right f.mem_all

end FeatureSet

namespace Register

/-- The place of a loop's feature in the shared word, counted from the lowest bit. -/
def position (l : Loop) (f : Feature) : Nat := f.index * 4 + l.slot

theorem position_lt (l : Loop) (f : Feature) : position l f < 20 := by
  have bound := l.slot_lt
  have index : f.index < 5 := by cases f <;> decide
  rw [position]
  omega

theorem position_injective {l : Loop} {f g : Feature} (h : position l f = position l g) : f = g := by
  apply Feature.index_injective
  simp only [position] at h
  omega

theorem position_ne_of_ne {l l' : Loop} (ne : l ≠ l') (f g : Feature) : position l f ≠ position l' g := by
  have bound := l.slot_lt
  have bound' := l'.slot_lt
  have slots : l.slot ≠ l'.slot := fun same => ne (Loop.slot_injective same)
  simp only [position]
  omega

theorem bit_featureBit (l : Loop) (f : Feature) {k : Nat} (hk : k < 32) :
    bit (featureBit l f) k = decide (k = position l f) := by
  have shift : (UInt32.ofNat (f.index * 4 + l.slot)).toNat = position l f := Place.shift_switch l f
  have bound := position_lt l f
  rw [featureBit, bit_shiftLeft (by omega) _ hk, shift, bit_one, Bool.eq_iff_iff]
  simp only [Bool.and_eq_true, decide_eq_true_eq]
  omega

def level (on : Bool) : UInt32 := if on then 1 else 0

theorem bit_level (on : Bool) (k : Nat) : bit (level on) k = (on && decide (k = 0)) := by
  cases on with
  | false => exact bit_zero k
  | true => exact (bit_one k).trans (Bool.true_and _).symm

namespace Place

theorem bit_write_switch (l : Loop) (f : Feature) (on : Bool) (word : UInt32) {k : Nat}
    (hk : k < 32) :
    bit ((switch l f).write word (level on)) k = if k = position l f then on else bit word k := by
  rw [bit_write _ _ _ hk, shift_switch, bit_level]
  change (if position l f ≤ k ∧ k < position l f + 1 then _ else _) = _
  by_cases h : k = position l f
  · subst h
    simp [position]
  · rw [if_neg (by omega), if_neg h]

theorem read_switch (l : Loop) (f : Feature) (word : UInt32) :
    (switch l f).read word = level (bit word (position l f)) := by
  apply eq_of_bit
  intro k _
  rw [bit_read, shift_switch, bit_level]
  change (bit word (position l f + k) && decide (k < 1)) = _
  by_cases h : k = 0
  · simp [h]
  · simp [h]

theorem write_switch_eq_setBits (l : Loop) (f : Feature) (word : UInt32) :
    (switch l f).write word (level true) = setBits word (featureBit l f) Field.features.mask := by
  apply eq_of_bit
  intro k hk
  have bound := position_lt l f
  rw [bit_write_switch l f true word hk, bit_setBits, bit_featureBit l f hk, Field.bit_mask]
  by_cases h : k = position l f
  · simp [h, Field.width, bound]
  · simp [h]

theorem write_switch_eq_clearBits (l : Loop) (f : Feature) (word : UInt32) :
    (switch l f).write word (level false) =
      clearBits word (featureBit l f) Field.features.mask := by
  apply eq_of_bit
  intro k hk
  have bound := position_lt l f
  rw [bit_write_switch l f false word hk, bit_clearBits _ _ _ hk, bit_featureBit l f hk,
    Field.bit_mask]
  by_cases h : k = position l f
  · simp [h, Field.width, bound]
  · simp [h]

end Place

/-! ## All switches of a loop -/

variable (l : Loop) (on : Feature → Bool)

def writeSwitches (fs : List Feature) (word : UInt32) : UInt32 :=
  fs.foldl (fun word f => (Place.switch l f).write word (level (on f))) word

theorem bit_writeSwitches_of_forall_ne {fs : List Feature} {k : Nat} (hk : k < 32)
    (h : ∀ f ∈ fs, k ≠ position l f) (word : UInt32) :
    bit (writeSwitches l on fs word) k = bit word k := by
  induction fs generalizing word with
  | nil => rfl
  | cons f rest ih =>
    change bit (writeSwitches l on rest ((Place.switch l f).write word (level (on f)))) k = _
    rw [ih (fun g hg => h g (List.mem_cons_of_mem f hg)), Place.bit_write_switch l f _ _ hk,
      if_neg (h f List.mem_cons_self)]

theorem bit_writeSwitches_of_mem {fs : List Feature} {f : Feature} (hf : f ∈ fs) (word : UInt32) :
    bit (writeSwitches l on fs word) (position l f) = on f := by
  have hk : position l f < 32 := Nat.lt_trans (position_lt l f) (by decide)
  induction fs generalizing word with
  | nil => cases hf
  | cons g rest ih =>
    by_cases later : f ∈ rest
    · exact ih later _
    · obtain rfl : f = g := (List.mem_cons.mp hf).resolve_right later
      change bit (writeSwitches l on rest ((Place.switch l f).write word (level (on f)))) _ = _
      rw [bit_writeSwitches_of_forall_ne l on hk, Place.bit_write_switch l f _ _ hk, if_pos rfl]
      intro g hg same
      exact later (position_injective same ▸ hg)

/-- Whatever the order in which all features are written, the word is the same. -/
theorem writeSwitches_eq_of_forall_mem {fs : List Feature} (each : ∀ f, f ∈ fs) (word : UInt32) :
    writeSwitches l on fs word = writeSwitches l on Feature.all word := by
  apply eq_of_bit
  intro k hk
  by_cases owned : ∃ f, k = position l f
  · obtain ⟨f, rfl⟩ := owned
    rw [bit_writeSwitches_of_mem l on (each f), bit_writeSwitches_of_mem l on f.mem_all]
  · have other : ∀ fs : List Feature, ∀ f ∈ fs, k ≠ position l f := fun _ f _ same => owned ⟨f, same⟩
    rw [bit_writeSwitches_of_forall_ne l on hk (other _), bit_writeSwitches_of_forall_ne l on hk (other _)]

theorem bit_featureMask (pick : Feature → Bool) {k : Nat} (hk : k < 32) :
    bit (Action.featureMask l pick) k =
      (Feature.all.filter pick).any fun f => decide (k = position l f) := by
  have fold : ∀ (fs : List Feature) (bits : UInt32),
      bit (fs.foldl (fun bits f => bits ||| featureBit l f) bits) k =
        (bit bits k || fs.any fun f => decide (k = position l f)) := by
    intro fs
    induction fs with
    | nil => simp
    | cons f rest ih =>
      intro bits
      rw [List.foldl_cons, ih, bit_or, bit_featureBit l f hk, List.any_cons, Bool.or_assoc]
  rw [Action.featureMask, fold, bit_zero, Bool.false_or]

/-- Clearing and setting whole masks at once is writing the switches one by one. -/
theorem writeSwitches_all (word : UInt32) :
    writeSwitches l on Feature.all word =
      (word &&& ~~~Action.featureMask l (!on ·)) ||| Action.featureMask l on := by
  apply eq_of_bit
  intro k hk
  rw [bit_or, bit_and, bit_not hk, bit_featureMask l _ hk, bit_featureMask l _ hk]
  by_cases h : ∃ f, k = position l f
  · obtain ⟨f, rfl⟩ := h
    have only : ∀ pick : Feature → Bool,
        ((Feature.all.filter pick).any fun g => decide (position l f = position l g)) = pick f := by
      intro pick
      rw [Bool.eq_iff_iff, List.any_eq_true]
      constructor
      · rintro ⟨g, hg, same⟩
        rw [position_injective (of_decide_eq_true same)]
        exact (List.mem_filter.mp hg).2
      · intro picked
        exact ⟨f, List.mem_filter.mpr ⟨f.mem_all, picked⟩, decide_eq_true rfl⟩
    rw [bit_writeSwitches_of_mem l on f.mem_all, only, only]
    cases on f <;> simp
  · have none : ∀ pick : Feature → Bool,
        ((Feature.all.filter pick).any fun g => decide (k = position l g)) = false := by
      intro pick
      rw [List.any_eq_false]
      intro g _ same
      exact h ⟨g, of_decide_eq_true same⟩
    rw [bit_writeSwitches_of_forall_ne l on hk (fun f _ same => h ⟨f, same⟩), none, none]
    simp

end Register

end LockServo

import LockServo.Proofs.Register.Lens
import LockServo.Register.Map

/-!
# Places of the register map

A place is what one setter stores on its own: a whole field, or one switch in the shared feature word.
There are sixty of them. The main statements: different places share no bit, a place reads back what
was written to it, and a write leaves every bit outside its place as it was.
-/

namespace LockServo.Register

namespace Field

def isAdjustable : Field → Bool
  | .features | .slowInput _ | .fastInput _ | .fastOutput _ => false
  | _ => true

def width : Field → Nat
  | .features => 20
  | .setpoint _ | .derivative _ | .limit .. | .fastInput _ | .fastOutput _ => 14
  | .proportional _ | .integral _ | .relockStep _ => 24
  | .relockLow _ | .relockHigh _ | .slowInput _ => 12
  | .relockPin _ => 2
  | .slowOutput _ => 8

theorem bit_mask (f : Field) (k : Nat) : bit f.mask k = decide (k < f.width) := by
  apply bit_of_toNat_eq
  cases f <;> rfl

theorem shift_add_width_le (f : Field) : f.shift.toNat + f.width ≤ 32 := by
  cases f <;> simp [shift, width]

def ofOffset? (b : Block) (offset : Nat) : Option Field :=
  all.find? fun f => f.block = b && f.offset = offset
where
  all : List Field :=
    .features ::
    Loop.all.map .setpoint ++ Loop.all.map .proportional ++ Loop.all.map .integral ++
    Loop.all.map .derivative ++ Loop.all.map .relockLow ++ Loop.all.map .relockHigh ++
    Loop.all.map .relockStep ++ Loop.all.map .relockPin ++
    (Channel.all.flatMap fun c => [.limit c .low, .limit c .high]) ++
    (List.finRange 4).map .slowInput ++ (List.finRange 4).map .slowOutput ++
    Channel.all.map .fastInput ++ Channel.all.map .fastOutput

theorem ofOffset?_offset (f : Field) : ofOffset? f.block f.offset = some f := by
  rcases f with _ | ⟨_ | _, _ | _⟩ | ⟨_ | _, _ | _⟩ | ⟨_ | _, _ | _⟩ | ⟨_ | _, _ | _⟩ |
    ⟨_ | _, _ | _⟩ | ⟨_ | _, _ | _⟩ | ⟨_ | _, _ | _⟩ | ⟨_ | _, _ | _⟩ | ⟨_ | _, _ | _⟩ |
    i | i | c | c
  case slowInput | slowOutput => revert i; decide
  case fastInput | fastOutput => cases c <;> rfl
  all_goals rfl

theorem eq_of_offset {f g : Field} (hb : f.block = g.block) (ho : f.offset = g.offset) : f = g := by
  have h := ofOffset?_offset f
  rw [hb, ho, ofOffset?_offset] at h
  exact (Option.some.inj h).symm

end Field

inductive Place where
  | number (field : Field) (adjustable : field.isAdjustable = true := by exact Eq.refl true)
  | switch (loop : Loop) (feature : Feature)
  deriving DecidableEq

namespace Place

def field : Place → Field
  | .number f _ => f
  | .switch .. => .features

theorem eq_number_iff {p : Place} {f : Field} (hf : f.isAdjustable = true) :
    p = .number f hf ↔ p.field = f := by
  constructor
  · rintro rfl
    rfl
  · intro same
    cases p with
    | number g hg =>
      cases same
      rfl
    | switch l g =>
      cases same
      cases hf

def mask : Place → UInt32
  | .number f _ => f.mask
  | .switch .. => 1

def shift : Place → UInt32
  | .number f _ => f.shift
  | .switch l f => UInt32.ofNat (f.index * 4 + l.slot)

def width : Place → Nat
  | .number f _ => f.width
  | .switch .. => 1

theorem shift_switch (l : Loop) (f : Feature) : (switch l f).shift.toNat = f.index * 4 + l.slot := by
  have bound := l.slot_lt
  have index : f.index < 5 := by cases f <;> decide
  exact UInt32.toNat_ofNat_of_lt' (by simp [UInt32.size]; omega)

theorem bit_mask (p : Place) (k : Nat) : bit p.mask k = decide (k < p.width) := by
  cases p with
  | number f _ => exact f.bit_mask k
  | switch l f => exact bit_of_toNat_eq rfl k

theorem shift_add_width_le (p : Place) : p.shift.toNat + p.width ≤ 32 := by
  cases p with
  | number f _ => exact f.shift_add_width_le
  | switch l f =>
    have bound := l.slot_lt
    have index : f.index < 5 := by cases f <;> decide
    rw [shift_switch, width]
    omega

theorem width_pos (p : Place) : 0 < p.width := by
  cases p with
  | number f _ => cases f <;> simp [width, Field.width]
  | switch l f => exact Nat.one_pos

theorem shift_lt (p : Place) : p.shift.toNat < 32 := by
  have := p.shift_add_width_le
  have := p.width_pos
  omega

/-- Whether the place takes up this bit of this word. -/
def Covers (p : Place) (b : Block) (offset k : Nat) : Prop :=
  p.field.block = b ∧ p.field.offset = offset ∧ p.shift.toNat ≤ k ∧ k < p.shift.toNat + p.width

instance (p : Place) (b : Block) (offset k : Nat) : Decidable (p.Covers b offset k) :=
  inferInstanceAs (Decidable (_ ∧ _))

theorem eq_of_covers {p q : Place} {b : Block} {offset k : Nat} (hp : p.Covers b offset k)
    (hq : q.Covers b offset k) : p = q := by
  obtain ⟨hpb, hpo, hpl, hpu⟩ := hp
  obtain ⟨hqb, hqo, hql, hqu⟩ := hq
  have same : p.field = q.field := Field.eq_of_offset (hpb.trans hqb.symm) (hpo.trans hqo.symm)
  cases p with
  | number f hf =>
    cases q with
    | number g hg => cases same; rfl
    | switch l g => cases same; cases hf
  | switch l f =>
    cases q with
    | number g hg => cases same; cases hg
    | switch l' g =>
      rw [shift_switch] at hpl hpu hql hqu
      simp only [width] at hpu hqu
      have bound := l.slot_lt
      have bound' := l'.slot_lt
      have hf : f = g := Feature.index_injective (by omega)
      have hl : l = l' := Loop.slot_injective (by rw [hf] at hpl hpu; omega)
      rw [hf, hl]

/-! ## Reading and writing a place in its word -/

def read (p : Place) (word : UInt32) : UInt32 := getField word p.mask p.shift

def write (p : Place) (word value : UInt32) : UInt32 := setField word value p.mask p.shift

theorem bit_read (p : Place) (word : UInt32) (k : Nat) :
    bit (p.read word) k = (bit word (p.shift.toNat + k) && decide (k < p.width)) := by
  rw [read, bit_getField p.shift_lt, bit_mask]

theorem bit_write (p : Place) (word value : UInt32) {k : Nat} (hk : k < 32) :
    bit (p.write word value) k =
      if p.shift.toNat ≤ k ∧ k < p.shift.toNat + p.width then bit value (k - p.shift.toNat)
      else bit word k := by
  rw [write, bit_setField p.shift_lt _ _ _ hk, bit_mask]
  congr 1
  simp only [decide_eq_true_eq, eq_iff_iff]
  omega

theorem read_write (p : Place) (word value : UInt32) :
    p.read (p.write word value) = value &&& p.mask := by
  apply eq_of_bit
  intro k _
  have fits := p.shift_add_width_le
  rw [bit_read, bit_and, bit_mask]
  by_cases hk : k < p.width
  · rw [bit_write p word value (by omega), if_pos (by omega)]
    simp [hk]
  · simp [hk]

theorem read_write_of_ne {p q : Place} (ne : p ≠ q) (same : p.field = q.field)
    (word value : UInt32) : p.read (q.write word value) = p.read word := by
  apply eq_of_bit
  intro k _
  have fits := p.shift_add_width_le
  rw [bit_read, bit_read]
  by_cases hk : k < p.width
  · rw [bit_write q word value (by omega), if_neg]
    intro inside
    exact ne (eq_of_covers ⟨congrArg Field.block same, congrArg Field.offset same, by omega, by omega⟩
      ⟨rfl, rfl, inside⟩)
  · simp [hk]

theorem write_read (p : Place) (word : UInt32) : p.write word (p.read word) = word :=
  setField_getField p.shift_lt word p.mask

theorem read_mask (p : Place) (word : UInt32) : p.read word &&& p.mask = p.read word := by
  simp only [read, getField, UInt32.and_assoc, UInt32.and_self]

end Place

end LockServo.Register

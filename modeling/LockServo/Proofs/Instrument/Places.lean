import LockServo.Proofs.Instrument.Registers

/-!
# Counts by place

What the places of an instrument hold, and stores of single counts. After any sequence of stores each
place holds what was stored there last, and bits that belong to no place are as before.
-/

namespace LockServo.Instrument

open Register

variable {ν : Type}

def value (i : Instrument ν) (p : Place) : UInt32 := p.read (i.word p.field.block p.field.offset)

def put (i : Instrument ν) (p : Place) (count : UInt32) : Instrument ν :=
  i.setWord p.field.block p.field.offset (p.write (i.word p.field.block p.field.offset) count)

def putAll (i : Instrument ν) (stores : List (Place × UInt32)) : Instrument ν :=
  stores.foldl (fun j store => j.put store.1 store.2) i

/-! ## One store -/

@[simp] theorem put_calibration (i : Instrument ν) (p : Place) (count : UInt32) :
    (i.put p count).calibration = i.calibration :=
  setWord_calibration i _ _ _

/-- Storing what a place holds already changes nothing. -/
theorem put_value {i : Instrument ν} (h : i.FullSize) (p : Place) : i.put p (i.value p) = i := by
  rw [put, value, Place.write_read, setWord_word h p.field.isWord]

theorem put_fullSize {i : Instrument ν} (h : i.FullSize) (p : Place) (count : UInt32) :
    (i.put p count).FullSize :=
  setWord_fullSize h _ _ _

theorem put_sound {i : Instrument ν} (h : i.Sound) (p : Place) (count : UInt32) :
    (i.put p count).Sound :=
  setWord_sound h _ _ _

theorem word_put {i : Instrument ν} (h : i.Sound) (p : Place) (count : UInt32) {b : Block}
    {offset : Nat} (hw : b.IsWord offset) :
    (i.put p count).word b offset =
      if p.field.block = b ∧ p.field.offset = offset then p.write (i.word b offset) count
      else i.word b offset := by
  rw [put, word_setWord h p.field.isWord hw]
  split
  · rename_i here
    rw [here.1, here.2]
  · rfl

theorem value_put {i : Instrument ν} (h : i.Sound) (p q : Place) (count : UInt32) :
    (i.put p count).value q = if p = q then count &&& p.mask else i.value q := by
  rw [value, word_put h p count q.field.isWord]
  by_cases hpq : p = q
  · subst hpq
    rw [if_pos ⟨rfl, rfl⟩, if_pos rfl, Place.read_write]
  · rw [if_neg hpq]
    split
    · rename_i here
      exact Place.read_write_of_ne (Ne.symm hpq) (Field.eq_of_offset here.1 here.2).symm _ _
    · rfl

theorem bit_put {i : Instrument ν} (h : i.Sound) {p : Place} (count : UInt32) {b : Block}
    {offset k : Nat} (hw : b.IsWord offset) (hp : ¬ p.Covers b offset k) :
    bit ((i.put p count).word b offset) k = bit (i.word b offset) k := by
  rcases Nat.lt_or_ge k 32 with hk | hk
  · rw [word_put h p count hw]
    split
    · rename_i here
      rw [Place.bit_write p _ _ hk, if_neg fun inside => hp ⟨here.1, here.2, inside⟩]
    · rfl
  · rw [bit_of_le hk, bit_of_le hk]

/-! ## Many stores -/

variable (stores : List (Place × UInt32))

theorem putAll_append (i : Instrument ν) (later : List (Place × UInt32)) :
    i.putAll (stores ++ later) = (i.putAll stores).putAll later :=
  List.foldl_append

theorem putAll_fullSize {i : Instrument ν} (h : i.FullSize) : (i.putAll stores).FullSize := by
  induction stores generalizing i with
  | nil => exact h
  | cons store rest ih => exact ih (put_fullSize h store.1 store.2)

theorem putAll_sound {i : Instrument ν} (h : i.Sound) : (i.putAll stores).Sound := by
  induction stores generalizing i with
  | nil => exact h
  | cons store rest ih => exact ih (put_sound h store.1 store.2)

@[simp] theorem putAll_calibration (i : Instrument ν) :
    (i.putAll stores).calibration = i.calibration := by
  induction stores generalizing i with
  | nil => rfl
  | cons store rest ih => exact (ih (i.put store.1 store.2)).trans (put_calibration i _ _)

theorem value_putAll {i : Instrument ν} (h : i.Sound) (p : Place) :
    (i.putAll stores).value p =
      ((stores.reverse.lookup p).map (· &&& p.mask)).getD (i.value p) := by
  induction stores generalizing i with
  | nil => rfl
  | cons store rest ih =>
    obtain ⟨q, count⟩ := store
    change ((i.put q count).putAll rest).value p = _
    rw [ih (put_sound h q count), value_put h, List.reverse_cons, List.lookup_append]
    cases rest.reverse.lookup p with
    | some last => rfl
    | none =>
      by_cases hqp : q = p
      · subst hqp
        simp
      · have hne : (p == q) = false := by simpa using Ne.symm hqp
        simp [hqp, List.lookup_cons, hne]

theorem value_putAll_of_forall {i : Instrument ν} (h : i.Sound) {target : Place → UInt32}
    (follows : ∀ store ∈ stores, store.2 = target store.1) {p : Place}
    (reached : p ∈ stores.map Prod.fst) : (i.putAll stores).value p = target p &&& p.mask := by
  rw [value_putAll stores h]
  cases hp : stores.reverse.lookup p with
  | some count =>
    have member : (p, count) ∈ stores := by
      obtain ⟨before, after, split, -⟩ := List.lookup_eq_some_iff.mp hp
      rw [← List.mem_reverse, split]
      exact List.mem_append_right _ List.mem_cons_self
    exact congrArg (· &&& p.mask) (follows _ member)
  | none =>
    obtain ⟨store, member, rfl⟩ := List.mem_map.mp reached
    have missing := List.lookup_eq_none_iff.mp hp store (List.mem_reverse.mpr member)
    simp at missing

theorem value_putAll_of_not_mem {i : Instrument ν} (h : i.Sound) {p : Place}
    (missing : p ∉ stores.map Prod.fst) : (i.putAll stores).value p = i.value p := by
  rw [value_putAll stores h, List.lookup_eq_none_iff.mpr]
  · rfl
  · intro store member
    have ne : store.1 ≠ p := by
      rintro rfl
      exact missing (List.mem_map_of_mem (List.mem_reverse.mp member))
    simpa using ne.symm

theorem bit_putAll {i : Instrument ν} (h : i.Sound) {b : Block} {offset k : Nat}
    (hw : b.IsWord offset) (uncovered : ∀ store ∈ stores, ¬ store.1.Covers b offset k) :
    bit ((i.putAll stores).word b offset) k = bit (i.word b offset) k := by
  induction stores generalizing i with
  | nil => rfl
  | cons store rest ih =>
    have first := bit_put h store.2 hw (uncovered store List.mem_cons_self)
    have later := ih (put_sound h store.1 store.2) fun s member =>
      uncovered s (List.mem_cons_of_mem store member)
    exact later.trans first

/-! ## Equal registers -/

theorem bit_value {i : Instrument ν} {p : Place} {b : Block} {offset k : Nat}
    (covers : p.Covers b offset k) :
    bit (i.word b offset) k = bit (i.value p) (k - p.shift.toNat) := by
  obtain ⟨rfl, rfl, low, high⟩ := covers
  have inside : k - p.shift.toNat < p.width := by omega
  rw [value, Place.bit_read, Nat.add_sub_cancel' low, decide_eq_true inside, Bool.and_true]

/-- Equal counts in the places that cover a bit, or an equal bit where none does, make all words
equal. -/
theorem word_eq_of_value_eq {i j : Instrument ν} {b : Block} {offset : Nat}
    (places : ∀ p : Place, i.value p = j.value p)
    (elsewhere : ∀ k : Nat, (∀ p : Place, ¬ p.Covers b offset k) →
      bit (i.word b offset) k = bit (j.word b offset) k) :
    i.word b offset = j.word b offset := by
  apply eq_of_bit
  intro k _
  by_cases covered : ∃ p : Place, p.Covers b offset k
  · obtain ⟨p, covers⟩ := covered
    rw [bit_value covers, bit_value covers, places p]
  · exact elsewhere k fun p covers => covered ⟨p, covers⟩

/-- The same calibration and the same words, on whatever windows. -/
structure Agrees (i j : Instrument ν) : Prop where
  calibration : i.calibration = j.calibration
  word : ∀ (b : Block) (offset : Nat), b.IsWord offset → i.word b offset = j.word b offset

namespace Agrees

variable {i j : Instrument ν}

theorem refl (i : Instrument ν) : i.Agrees i :=
  ⟨rfl, fun _ _ _ => rfl⟩

theorem value (h : i.Agrees j) (p : Place) : i.value p = j.value p :=
  congrArg p.read (h.word _ _ p.field.isWord)

theorem words (h : i.Agrees j) (hi : i.FullSize) (hj : j.FullSize) (b : Block) :
    i.words b = j.words b := by
  rw [words_eq_map hi, words_eq_map hj]
  apply List.map_congr_left
  intro n hn
  have bound := List.mem_range.mp hn
  refine h.word b _ ⟨?_, ?_⟩
  · simp [wordSize]
  · simp only [wordSize] at bound ⊢
    omega

end Agrees

end LockServo.Instrument

import Mathlib.Algebra.Group.Nat.Defs
import LockServo.Proofs.Register.Access

/-!
# Storage behind a window

Accesses in 64-bit arithmetic on the storage itself, where a sum that does not fit, an index behind the
array or an end behind the mapped bytes is a fault. No run of accesses meets one: storage that holds its
block goes through every run as the window over it does.
-/

namespace LockServo.Register

def checkedSum (x y : UInt64) : Option UInt64 :=
  if x.toNat + y.toNat < 2 ^ 64 then some (x + y) else none

theorem exists_checkedSum {x y : UInt64} (h : x.toNat + y.toNat < 2 ^ 64) :
    ∃ z, checkedSum x y = some z ∧ z.toNat = x.toNat + y.toNat := by
  refine ⟨x + y, if_pos h, ?_⟩
  rw [UInt64.toNat_add]
  exact Nat.mod_eq_of_lt h

/-! ## Pages -/

/-- Pages mapped from an address on, and a block that starts some bytes into them. -/
structure Pages where
  base : UInt64
  inPage : UInt64
  length : UInt64

namespace Pages

def ofAddress (page address length : UInt64) : Pages :=
  let base := address &&& ~~~(page - 1)
  ⟨base, address - base, length⟩

def mapping (p : Pages) : Mapping := ⟨p.base.toNat, p.inPage.toNat, p.length.toNat⟩

/-- Clearing the low bits of an address rounds it down to the page. -/
theorem toNat_and_not {page address : UInt64} {k : Nat} (power : page.toNat = 2 ^ k) :
    (address &&& ~~~(page - 1)).toNat = address.toNat / 2 ^ k * 2 ^ k := by
  have positive := Nat.two_pow_pos k
  have low : (page - 1).toNat = 2 ^ k - 1 := by
    rw [UInt64.toNat_sub_of_le page 1 (UInt64.le_iff_toNat_le.mpr (power ▸ positive)), power]
    rfl
  have below : 2 ^ k - 1 < 2 ^ 64 := low ▸ (page - 1).toNat_lt
  have mask : UInt64.size - 1 - (2 ^ k - 1) = 2 ^ 64 - (2 ^ k - 1 + 1) := by
    change 2 ^ 64 - 1 - (2 ^ k - 1) = _
    omega
  apply Nat.eq_of_testBit_eq
  intro i
  rw [UInt64.toNat_and, Nat.testBit_and, UInt64.toNat_not, low, mask, Nat.testBit_two_pow_sub_succ below,
    Nat.testBit_two_pow_sub_one, Nat.testBit_mul_two_pow, Nat.testBit_div_two_pow]
  rcases Nat.lt_or_ge i k with inside | above
  · rw [decide_eq_true inside, decide_eq_false (Nat.not_le.mpr inside), Bool.not_true, Bool.and_false,
      Bool.and_false, Bool.false_and]
  · rw [decide_eq_false (Nat.not_lt.mpr above), decide_eq_true above, Nat.sub_add_cancel above]
    rcases Nat.lt_or_ge i 64 with short | long
    · rw [decide_eq_true short]
      exact Bool.and_true _
    · have off : address.toNat.testBit i = false :=
        Nat.testBit_lt_two_pow (Nat.lt_of_lt_of_le address.toNat_lt (Nat.pow_le_pow_right Nat.two_pos long))
      rw [off]
      rfl

theorem mapping_ofAddress {page address length : UInt64} {k : Nat} (power : page.toNat = 2 ^ k) :
    (ofAddress page address length).mapping = .ofAddress page.toNat address.toNat length.toNat := by
  have base : (address &&& ~~~(page - 1)).toNat = address.toNat / 2 ^ k * 2 ^ k := toNat_and_not power
  have le : (address &&& ~~~(page - 1)) ≤ address := by
    rw [UInt64.le_iff_toNat_le, base]
    exact Nat.div_mul_le_self _ _
  have split := Nat.div_add_mod' address.toNat (2 ^ k)
  rw [ofAddress, mapping, Mapping.ofAddress]
  simp only [UInt64.toNat_sub_of_le _ _ le, base, power, Mapping.mk.injEq, true_and, and_true]
  omega

/-- The address of the word at an offset, if its bytes are mapped, are bytes of the file and start on a
word. -/
def reach? (fileSize : Nat) (p : Pages) (offset : UInt64) : Option Nat := do
  let start ← checkedSum p.inPage offset
  let stop ← checkedSum start 4
  let mapped ← checkedSum p.inPage p.length
  if stop ≤ mapped ∧ start.toNat % 4 = 0 ∧ p.base.toNat + stop.toNat ≤ fileSize then
    some (p.base.toNat + start.toNat)
  else none

structure Fits (fileSize : Nat) (p : Pages) : Prop where
  aligned : p.inPage.toNat % 4 = 0
  small : p.inPage.toNat + p.length.toNat < 2 ^ 64
  covered : p.base.toNat + p.inPage.toNat + p.length.toNat ≤ fileSize

theorem reach?_of_fits {fileSize : Nat} {p : Pages} (h : p.Fits fileSize) {offset : UInt64}
    (aligned : offset.toNat % 4 = 0) (inside : offset.toNat + 4 ≤ p.length.toNat) :
    p.reach? fileSize offset = some (p.mapping.address offset.toNat) := by
  obtain ⟨word, small, covered⟩ := h
  obtain ⟨start, hstart, start_eq⟩ := exists_checkedSum (x := p.inPage) (y := offset) (by omega)
  obtain ⟨stop, hstop, stop_eq⟩ := exists_checkedSum (x := start) (y := 4) (by
    change start.toNat + 4 < 2 ^ 64
    omega)
  obtain ⟨mapped, hmapped, mapped_eq⟩ := exists_checkedSum small
  change stop.toNat = start.toNat + 4 at stop_eq
  have within : stop ≤ mapped ∧ start.toNat % 4 = 0 ∧ p.base.toNat + stop.toNat ≤ fileSize := by
    rw [UInt64.le_iff_toNat_le]
    omega
  have address : p.mapping.address offset.toNat = p.base.toNat + start.toNat := by
    rw [start_eq, ← Nat.add_assoc]
    rfl
  simp only [reach?, hstart, hstop, hmapped, Option.bind_eq_bind, Option.bind_some, if_pos within, address]

end Pages

/-! ## Storage -/

inductive Storage where
  | held (words : Array UInt32) (memory : Memory)
  | mapped (pages : Pages) (memory : Memory)

namespace Storage

def length : Storage → UInt64
  | .held words _ => .ofNat (words.size * wordSize)
  | .mapped pages _ => pages.length

def view (name : String) : Storage → View
  | .held words memory => ⟨⟨name, .held words⟩, memory⟩
  | .mapped pages memory => ⟨⟨name, .mapped pages.mapping⟩, memory⟩

def admits (s : Storage) (offset : UInt64) : Bool :=
  offset % 4 == 0 && (checkedSum offset 4).any (· ≤ s.length)

def load? (fileSize : Nat) (offset : UInt64) : Storage → Option UInt32
  | .held words _ => words[(offset / 4).toNat]?
  | .mapped pages memory => (pages.reach? fileSize offset).map memory.readWord

def store? (fileSize : Nat) (offset : UInt64) (word : UInt32) : Storage → Option Storage
  | .held words memory =>
    if h : (offset / 4).toNat < words.size then some (.held (words.set (offset / 4).toNat word) memory)
    else none
  | .mapped pages memory =>
    (pages.reach? fileSize offset).map fun address => .mapped pages (memory.writeWord address word)

/-- One access; nothing comes of one that reaches for what is not there. -/
def step? (fileSize : Nat) (a : Access) (s : Storage) : Option (Except RangeFault Reply × Storage) :=
  if s.admits a.offset then do
    let word ← s.load? fileSize a.offset
    match a.operation.stored? word with
    | none => return (.ok (a.operation.reply word), s)
    | some new => return (.ok (a.operation.reply word), ← s.store? fileSize a.offset new)
  else return (.error (.ofAddress .registerOffset a.offset.toNat), s)

def run? (fileSize : Nat) : List Access → Storage → Option (List (Except RangeFault Reply) × Storage)
  | [], s => some ([], s)
  | a :: rest, s => do
    let (outcome, s) ← step? fileSize a s
    let (outcomes, s) ← run? fileSize rest s
    return (outcome :: outcomes, s)

def Holds (fileSize : Nat) : Storage → Prop
  | .held words _ => words.size * wordSize < 2 ^ 64
  | .mapped pages _ => pages.Fits fileSize

variable {fileSize : Nat} {s : Storage} {name : String}

theorem toNat_length (h : s.Holds fileSize) : s.length.toNat = (s.view name).window.length := by
  cases s with
  | held words memory => exact UInt64.toNat_ofNat_of_lt' h
  | mapped pages memory => rfl

/-- The checked sum decides as one that cannot overflow. -/
theorem admits_eq (h : s.Holds fileSize) (offset : UInt64) :
    s.admits offset = (s.view name).window.isWord offset.toNat := by
  have length : s.length.toNat = (s.view name).window.length := toNat_length h
  have below := s.length.toNat_lt
  have aligned : (offset % 4 == 0) = (offset.toNat % wordSize == 0) := by
    rw [Bool.eq_iff_iff, beq_iff_eq, beq_iff_eq, ← UInt64.toNat_inj, UInt64.toNat_mod]
    rfl
  rw [admits, Window.isWord, aligned, ← length]
  congr 1
  rcases Nat.lt_or_ge (offset.toNat + 4) (2 ^ 64) with small | large
  · obtain ⟨stop, sum, stop_eq⟩ := exists_checkedSum (x := offset) (y := 4) small
    rw [sum, Option.any_some, decide_eq_decide, UInt64.le_iff_toNat_le, stop_eq]
    rfl
  · have none : checkedSum offset 4 = none := if_neg (Nat.not_lt.mpr large)
    rw [none]
    refine (decide_eq_false ?_).symm
    simp only [wordSize]
    omega

theorem toNat_div_four (offset : UInt64) : (offset / 4).toNat = offset.toNat / wordSize :=
  UInt64.toNat_div offset 4

theorem index_lt {words : Array UInt32} {offset : UInt64}
    (within : offset.toNat + wordSize ≤ words.size * wordSize) : (offset / 4).toNat < words.size := by
  rw [toNat_div_four]
  simp only [wordSize] at within ⊢
  omega

theorem load?_eq (h : s.Holds fileSize) {offset : UInt64}
    (inside : (s.view name).window.isWord offset.toNat = true) :
    s.load? fileSize offset = some ((s.view name).get offset.toNat) := by
  obtain ⟨aligned, within⟩ := Window.isWord_iff.mp inside
  cases s with
  | held words memory =>
    have bound := index_lt within
    change words[(offset / 4).toNat]? = some (words.getD (offset.toNat / wordSize) 0)
    rw [Array.getD_eq_getD_getElem?, ← toNat_div_four, Array.getElem?_eq_getElem bound]
    rfl
  | mapped pages memory => exact congrArg (Option.map memory.readWord) (Pages.reach?_of_fits h aligned within)

theorem store?_eq (h : s.Holds fileSize) {offset : UInt64}
    (inside : (s.view name).window.isWord offset.toNat = true) (word : UInt32) :
    ∃ next, s.store? fileSize offset word = some next ∧
      next.view name = (s.view name).set offset.toNat word ∧ next.Holds fileSize := by
  obtain ⟨aligned, within⟩ := Window.isWord_iff.mp inside
  cases s with
  | held words memory =>
    have bound := index_lt within
    have written : words.set (offset / 4).toNat word bound =
        words.setIfInBounds (offset.toNat / wordSize) word := by
      rw [← toNat_div_four, Array.setIfInBounds, dif_pos bound]
    have size : (words.set (offset / 4).toNat word bound).size * wordSize < 2 ^ 64 := by
      rw [Array.size_set]
      exact h
    exact ⟨_, dif_pos bound, congrArg (fun words => View.mk ⟨name, .held words⟩ memory) written, size⟩
  | mapped pages memory =>
    exact ⟨_, congrArg (Option.map _) (Pages.reach?_of_fits h aligned within), rfl, h⟩

/-- A step meets no fault, and goes as the window's. -/
theorem step?_eq (h : s.Holds fileSize) (a : Access) :
    ∃ next, step? fileSize a s = some ((a.step (s.view name)).1, next) ∧
      next.view name = (a.step (s.view name)).2 ∧ next.Holds fileSize := by
  have admitted : s.admits a.offset = (s.view name).window.isWord a.offset.toNat := admits_eq h a.offset
  unfold step?
  cases inside : (s.view name).window.isWord a.offset.toNat with
  | false =>
    rw [Access.step_of_not_isWord inside, admitted, inside]
    exact ⟨s, rfl, rfl, h⟩
  | true =>
    rw [Access.step_of_isWord inside, admitted, inside, load?_eq h inside]
    cases stored : a.operation.stored? ((s.view name).get a.offset.toNat) with
    | none =>
      refine ⟨s, ?_, rfl, h⟩
      simp [stored]
    | some new =>
      obtain ⟨next, store, view, holds⟩ := store?_eq h inside new
      refine ⟨next, ?_, view, holds⟩
      simp [stored, store]

theorem run?_eq (h : s.Holds fileSize) (accesses : List Access) :
    ∃ last, run? fileSize accesses s = some ((Access.trace accesses (s.view name)).map Prod.fst, last) ∧
      last.view name = Access.afterAll accesses (s.view name) := by
  induction accesses generalizing s with
  | nil => exact ⟨s, rfl, rfl⟩
  | cons a rest ih =>
    obtain ⟨next, step, view, holds⟩ : ∃ next, step? fileSize a s = some ((a.step (s.view name)).1, next) ∧
        next.view name = (a.step (s.view name)).2 ∧ next.Holds fileSize := step?_eq h a
    obtain ⟨last, run, final⟩ := ih holds
    rw [view] at run final
    refine ⟨last, ?_, final⟩
    simp only [run?, step, run, Option.bind_eq_bind, Option.bind_some]
    rfl

end Storage

end LockServo.Register

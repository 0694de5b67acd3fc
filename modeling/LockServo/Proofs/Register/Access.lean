import LockServo.Proofs.Register.View

/-!
# Accesses to a window

The operations of a window as data, so that a run of them is a list. A window goes through any run as the
plain array of its words does, whether it holds them or maps them: the outcomes are the same, and so are
the words after every access.
-/

namespace LockServo.Register

/-! ## Words of a view by their number -/

namespace View

theorem length_words (v : View) : v.words.length = v.window.length / wordSize := by
  rw [words, List.length_map, List.length_range]

theorem isWord_mul {v : View} {i : Nat} (h : i < v.window.length / wordSize) :
    v.window.isWord (wordSize * i) = true := by
  rw [Window.isWord_iff]
  simp only [wordSize] at h ⊢
  omega

theorem words_getElem? (v : View) (i : Nat) :
    v.words[i]? = if i < v.window.length / wordSize then some (v.get (wordSize * i)) else none := by
  rw [words, List.getElem?_map]
  split
  · rename_i inside
    rw [List.getElem?_range inside]
    rfl
  · rename_i outside
    rw [List.getElem?_eq_none (by rw [List.length_range]; omega)]
    rfl

theorem div_wordSize_lt {v : View} {offset : Nat} (h : v.window.isWord offset = true) :
    offset / wordSize < v.window.length / wordSize ∧ wordSize * (offset / wordSize) = offset := by
  obtain ⟨aligned, inside⟩ := Window.isWord_iff.mp h
  simp only [wordSize] at aligned inside ⊢
  omega

theorem words_getElem?_of_isWord {v : View} {offset : Nat} (h : v.window.isWord offset = true) :
    v.words[offset / wordSize]? = some (v.get offset) := by
  obtain ⟨inside, whole⟩ := div_wordSize_lt h
  rw [words_getElem?, if_pos inside, whole]

theorem words_set {v : View} {offset : Nat} (h : v.window.isWord offset = true) (word : UInt32) :
    (v.set offset word).words = v.words.set (offset / wordSize) word := by
  obtain ⟨inside, whole⟩ := div_wordSize_lt h
  apply List.ext_getElem?
  intro i
  rw [words_getElem?, length_set, List.getElem?_set, length_words, words_getElem?]
  by_cases same : offset / wordSize = i
  · subst same
    rw [if_pos inside, if_pos rfl, if_pos inside, whole, get_set_self h]
  · rw [if_neg same]
    refine ite_congr rfl (fun below => ?_) fun _ => rfl
    have apart : wordSize * i ≠ offset := by
      rintro rfl
      exact same (Nat.mul_div_cancel_left i (by decide))
    rw [get_set_of_ne h (isWord_mul below) apart]

end View

/-! ## Operations and accesses -/

inductive Operation where
  | read
  | write (word : UInt32)
  | modify (f : UInt32 → UInt32)
  | getField (mask shift : UInt32)
  | setField (value mask shift : UInt32)
  | setBits (bits mask : UInt32)
  | clearBits (bits mask : UInt32)
  | bitsSet (bits mask : UInt32)

inductive Reply where
  | done
  | word (word : UInt32)
  | flag (on : Bool)
  deriving DecidableEq

namespace Operation

def reply (word : UInt32) : Operation → Reply
  | .read => .word word
  | .modify f => .word (f word)
  | .getField mask shift => .word (Register.getField word mask shift)
  | .bitsSet bits mask => .flag (Register.bitsSet word bits mask)
  | .write _ | .setField .. | .setBits .. | .clearBits .. => .done

def stored? (word : UInt32) : Operation → Option UInt32
  | .read | .getField .. | .bitsSet .. => none
  | .write new => some new
  | .modify f => some (f word)
  | .setField value mask shift => some (Register.setField word value mask shift)
  | .setBits bits mask => some (Register.setBits word bits mask)
  | .clearBits bits mask => some (Register.clearBits word bits mask)

def perform (offset : Nat) (v : View) : Operation → Except RangeFault (Reply × View)
  | .read => return (.word (← v.read offset), v)
  | .write word => return (.done, ← v.write offset word)
  | .modify f => do
    let (word, next) ← v.modify offset f
    return (.word word, next)
  | .getField mask shift => return (.word (← v.getField offset mask shift), v)
  | .setField value mask shift => return (.done, ← v.setField offset value mask shift)
  | .setBits bits mask => return (.done, ← v.setBits offset bits mask)
  | .clearBits bits mask => return (.done, ← v.clearBits offset bits mask)
  | .bitsSet bits mask => return (.flag (← v.bitsSet offset bits mask), v)

variable {v : View} {offset : Nat}

theorem perform_of_isWord (h : v.window.isWord offset = true) (op : Operation) :
    op.perform offset v =
      .ok (op.reply (v.get offset), (op.stored? (v.get offset)).elim v (v.set offset)) := by
  cases op with
  | read => rw [perform, View.read_of_isWord h]; rfl
  | write word => rw [perform, View.write, View.check_of_isWord h]; rfl
  | modify f => rw [perform, View.modify_of_isWord h]; rfl
  | getField mask shift => rw [perform, View.getField_of_isWord h]; rfl
  | setField value mask shift => rw [perform, View.setField_of_isWord h]; rfl
  | setBits bits mask => rw [perform, View.setBits_of_isWord h]; rfl
  | clearBits bits mask => rw [perform, View.clearBits_of_isWord h]; rfl
  | bitsSet bits mask => rw [perform, View.bitsSet_of_isWord h]; rfl

theorem perform_of_not_isWord (h : v.window.isWord offset = false) (op : Operation) :
    op.perform offset v = .error (.ofAddress .registerOffset offset) := by
  have refused : v.check offset = .error (.ofAddress .registerOffset offset) := by
    rw [View.check, h]
    rfl
  have read : v.read offset = .error (.ofAddress .registerOffset offset) := by
    rw [View.read, refused]
    rfl
  have modify : ∀ f, v.modify offset f = .error (.ofAddress .registerOffset offset) := by
    intro f
    rw [View.modify, refused]
    rfl
  cases op with
  | read => rw [perform, read]; rfl
  | write word => rw [perform, View.write, refused]; rfl
  | modify f => rw [perform, modify]; rfl
  | getField mask shift => rw [perform, View.getField, read]; rfl
  | setField value mask shift => rw [perform, View.setField, modify]; rfl
  | setBits bits mask => rw [perform, View.setBits, modify]; rfl
  | clearBits bits mask => rw [perform, View.clearBits, modify]; rfl
  | bitsSet bits mask => rw [perform, View.bitsSet, read]; rfl

end Operation

structure Access where
  offset : UInt64
  operation : Operation

namespace Access

/-- The outcome of an access and the view after it; a refused access leaves the view as it was. -/
def step (a : Access) (v : View) : Except RangeFault Reply × View :=
  match a.operation.perform a.offset.toNat v with
  | .ok (reply, next) => (.ok reply, next)
  | .error fault => (.error fault, v)

/-- The same on an array of words, indexed by the offset in words. -/
def onWords (a : Access) (words : List UInt32) : Except RangeFault Reply × List UInt32 :=
  let index := a.offset.toNat / wordSize
  if a.offset.toNat % wordSize = 0 ∧ index < words.length then
    let word := words.getD index 0
    (.ok (a.operation.reply word), (a.operation.stored? word).elim words (words.set index))
  else (.error (.ofAddress .registerOffset a.offset.toNat), words)

def afterAll (accesses : List Access) (v : View) : View := accesses.foldl (fun v a => (a.step v).2) v

def trace : List Access → View → List (Except RangeFault Reply × List UInt32)
  | [], _ => []
  | a :: rest, v => ((a.step v).1, (a.step v).2.words) :: trace rest (a.step v).2

def traceOnWords : List Access → List UInt32 → List (Except RangeFault Reply × List UInt32)
  | [], _ => []
  | a :: rest, words => a.onWords words :: traceOnWords rest (a.onWords words).2

variable {a : Access} {v : View}

theorem step_of_isWord (h : v.window.isWord a.offset.toNat = true) :
    a.step v = (.ok (a.operation.reply (v.get a.offset.toNat)),
      (a.operation.stored? (v.get a.offset.toNat)).elim v (v.set a.offset.toNat)) := by
  rw [step, Operation.perform_of_isWord h]

theorem step_of_not_isWord (h : v.window.isWord a.offset.toNat = false) :
    a.step v = (.error (.ofAddress .registerOffset a.offset.toNat), v) := by
  rw [step, Operation.perform_of_not_isWord h]

/-- Of the two tests the second is on whole words, so the bytes behind the last whole word are refused. -/
theorem isWord_iff_index (v : View) (offset : Nat) :
    v.window.isWord offset = true ↔ offset % wordSize = 0 ∧ offset / wordSize < v.words.length := by
  rw [Window.isWord_iff, View.length_words]
  simp only [wordSize]
  omega

theorem step_words (a : Access) (v : View) :
    ((a.step v).1, (a.step v).2.words) = a.onWords v.words := by
  have inside := isWord_iff_index v a.offset.toNat
  unfold onWords
  dsimp only
  cases h : v.window.isWord a.offset.toNat with
  | false =>
    rw [step_of_not_isWord h, if_neg fun index => Bool.false_ne_true (h.symm.trans (inside.mpr index))]
  | true =>
    have word : v.words.getD (a.offset.toNat / wordSize) 0 = v.get a.offset.toNat := by
      rw [List.getD_eq_getElem?_getD, View.words_getElem?_of_isWord h, Option.getD_some]
    rw [step_of_isWord h, word, if_pos (inside.mp h)]
    cases a.operation.stored? (v.get a.offset.toNat) with
    | none => rfl
    | some new => exact congrArg (Prod.mk _) (View.words_set h new)

theorem trace_eq (accesses : List Access) (v : View) :
    trace accesses v = traceOnWords accesses v.words := by
  induction accesses generalizing v with
  | nil => rfl
  | cons a rest ih =>
    rw [trace, traceOnWords, ih, step_words, ← step_words]

/-- An access, refused or not, leaves the window as long as it was. -/
theorem length_step (a : Access) (v : View) : (a.step v).2.window.length = v.window.length := by
  cases h : v.window.isWord a.offset.toNat with
  | false => rw [step_of_not_isWord h]
  | true =>
    rw [step_of_isWord h]
    cases a.operation.stored? (v.get a.offset.toNat) with
    | none => rfl
    | some new => exact View.length_set v _ new

theorem length_afterAll (accesses : List Access) (v : View) :
    (afterAll accesses v).window.length = v.window.length := by
  induction accesses generalizing v with
  | nil => rfl
  | cons a rest ih => exact (ih _).trans (length_step a v)

end Access

end LockServo.Register

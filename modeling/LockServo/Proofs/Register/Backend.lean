import Mathlib.Control.Monad.Basic
import LockServo.Proofs.Register.Storage

/-!
# Windows on either backend

A window of held words and one onto a device are checked arrays of words. Any run of accesses has the
outcomes of the plain array, leaves all but the word that it names, and never reaches for storage that is
not there.
-/

namespace LockServo.Register

/-- Where the words of a window come from: bytes that the program holds, or a block of a device. -/
inductive Backend where
  | simulated (bytes : Nat)
  | device (page address length : UInt64)

namespace Backend

/-- The number of words. What is held is rounded up to whole words, and of a device's block only whole words
are reached. -/
def count : Backend → Nat
  | .simulated bytes => (bytes + 3) / 4
  | .device _ _ length => length.toNat / 4

def length : Backend → Nat
  | .simulated bytes => 4 * ((bytes + 3) / 4)
  | .device _ _ length => length.toNat

def words (memory : Memory) : Backend → List UInt32
  | .simulated bytes => List.replicate ((bytes + 3) / 4) 0
  | .device _ address length =>
    (List.range (length.toNat / 4)).map fun i => memory.readWord (address.toNat + 4 * i)

def storage (memory : Memory) : Backend → Storage
  | .simulated bytes => .held (Array.replicate ((bytes + 3) / 4) 0) memory
  | .device page address length => .mapped (.ofAddress page address length) memory

def Covers (offset address : Nat) : Backend → Prop
  | .simulated _ => False
  | .device _ start _ => start.toNat + offset ≤ address ∧ address < start.toNat + offset + 4

/-- The window that a backend opens over a file of some bytes. A page is a power of two and has room for a
word, and a block ends inside the file. -/
inductive Opens (fileSize : Nat) (memory : Memory) (name : String) : Backend → Window → Prop
  | simulated (bytes : Nat) : Opens fileSize memory name (.simulated bytes) (.simulated name bytes)
  | device {page address length : UInt64} {k : Nat} {w : Window} (power : page.toNat = 2 ^ k)
      (two_le : 2 ≤ k) (small : address.toNat + length.toNat < 2 ^ 64)
      (covered : address.toNat + length.toNat ≤ fileSize)
      (opened : (Window.map (ν := Binary64) page.toNat (.ok memory) name address.toNat
        length.toNat).value = .ok w) :
      Opens fileSize memory name (.device page address length) w

variable {b : Backend} {fileSize : Nat} {memory : Memory} {name : String} {w : Window}

namespace Opens

theorem view_storage (h : b.Opens fileSize memory name w) : (b.storage memory).view name = ⟨w, memory⟩ := by
  cases h with
  | simulated bytes => rfl
  | device power two_le small covered opened =>
    obtain ⟨-, rfl⟩ := Window.eq_of_map opened
    rw [storage, Storage.view, Pages.mapping_ofAddress power]

theorem holds_storage (h : b.Opens fileSize memory name w) (wide : b.length < 2 ^ 64) :
    (b.storage memory).Holds fileSize := by
  cases h with
  | simulated bytes =>
    change (Array.replicate ((bytes + 3) / 4) 0).size * 4 < 2 ^ 64
    rw [Array.size_replicate, Nat.mul_comm]
    exact wide
  | @device page address length k w power two_le small covered opened =>
    obtain ⟨aligned, -⟩ := Window.eq_of_map opened
    have mapping : (Pages.ofAddress page address length).mapping =
        .ofAddress page.toNat address.toNat length.toNat := Pages.mapping_ofAddress power
    have base : (Pages.ofAddress page address length).base.toNat = address.toNat / page.toNat * page.toNat :=
      congrArg Mapping.base mapping
    have inPage : (Pages.ofAddress page address length).inPage.toNat = address.toNat % page.toNat :=
      congrArg Mapping.inPage mapping
    have split := Nat.div_add_mod' address.toNat page.toNat
    have whole : 4 ∣ page.toNat := power ▸ Nat.pow_dvd_pow 2 two_le
    constructor
    · rw [inPage, Nat.mod_mod_of_dvd _ whole]
      exact aligned
    · rw [inPage]
      change _ + length.toNat < _
      have := Nat.mod_le address.toNat page.toNat
      omega
    · rw [base, inPage, split]
      exact covered

theorem length_eq (h : b.Opens fileSize memory name w) : w.length = b.length := by
  cases h with
  | simulated bytes =>
    change (Array.replicate ((bytes + 3) / 4) 0).size * 4 = 4 * ((bytes + 3) / 4)
    rw [Array.size_replicate, Nat.mul_comm]
  | device power two_le small covered opened =>
    obtain ⟨-, rfl⟩ := Window.eq_of_map opened
    rfl

theorem count_eq (h : b.Opens fileSize memory name w) : w.length / wordSize = b.count := by
  rw [h.length_eq]
  cases b with
  | simulated bytes => exact Nat.mul_div_cancel_left _ (by decide)
  | device page address length => rfl

theorem words_eq (h : b.Opens fileSize memory name w) : (View.mk w memory).words = b.words memory := by
  rw [View.words, h.count_eq]
  cases h with
  | simulated bytes =>
    have zero : ∀ n k : Nat, (Array.replicate n (0 : UInt32)).getD k 0 = 0 := by
      intro n k
      rw [Array.getD_eq_getD_getElem?, Array.getElem?_replicate]
      split <;> rfl
    rw [words, ← List.length_range (n := (bytes + 3) / 4), ← List.map_const']
    exact List.map_congr_left fun i _ => zero _ _
  | device power two_le small covered opened =>
    obtain ⟨-, rfl⟩ := Window.eq_of_map opened
    refine List.map_congr_left fun i _ => ?_
    exact congrArg memory.readWord (Mapping.ofAddress_address _ _ _ _)

end Opens

def Backs (v : View) : Backend → Prop
  | .simulated _ => ∃ words, v.window.cells = .held words
  | .device page address length =>
    v.window.cells = .mapped (.ofAddress page.toNat address.toNat length.toNat)

theorem Opens.backs (h : b.Opens fileSize memory name w) : b.Backs ⟨w, memory⟩ := by
  cases h with
  | simulated bytes => exact ⟨_, rfl⟩
  | device power two_le small covered opened =>
    obtain ⟨-, rfl⟩ := Window.eq_of_map opened
    rfl

variable {v : View}

theorem Backs.set (h : b.Backs v) (offset : Nat) (word : UInt32) : b.Backs (v.set offset word) := by
  cases b with
  | simulated bytes =>
    obtain ⟨words, held⟩ := h
    rw [View.set, held]
    exact ⟨_, rfl⟩
  | device page address length =>
    have mapped : v.window.cells = .mapped (.ofAddress page.toNat address.toNat length.toNat) := h
    rw [View.set, mapped]
    exact h

theorem Backs.byte_set (h : b.Backs v) {offset address : Nat} (outside : ¬ b.Covers offset address)
    (word : UInt32) : (v.set offset word).memory.byte address = v.memory.byte address := by
  cases b with
  | simulated bytes =>
    obtain ⟨words, held⟩ := h
    rw [View.set, held]
  | device page start length =>
    have mapped : v.window.cells = .mapped (.ofAddress page.toNat start.toNat length.toNat) := h
    rw [View.set, mapped]
    change (v.memory.writeWord (Mapping.address _ offset) word).byte address = _
    rw [Mapping.ofAddress_address]
    apply Memory.writeWord_byte_of_outside
    simp only [Covers] at outside
    omega

end Backend

/-! ## Runs -/

namespace Access

/-- What an access may do to a view: it is refused off the words and otherwise touches the word that it names. -/
structure Contained (b : Backend) (v : View) (a : Access) : Prop where
  accepted_iff : (∃ reply, (a.step v).1 = .ok reply) ↔
    a.offset.toNat % 4 = 0 ∧ a.offset.toNat / 4 < b.count
  refused : ∀ fault, (a.step v).1 = .error fault →
    fault = .ofAddress .registerOffset a.offset.toNat ∧ (a.step v).2 = v
  word : ∀ i, i ≠ a.offset.toNat / 4 → (a.step v).2.words[i]? = v.words[i]?
  byte : ∀ address, ¬ b.Covers a.offset.toNat address →
    (a.step v).2.memory.byte address = v.memory.byte address
  modified : ∀ f, a.operation = .modify f → ∀ reply, (a.step v).1 = .ok reply →
    ∃ word, reply = .word word ∧ (a.step v).2.words[a.offset.toNat / 4]? = some word

variable {b : Backend} {v : View}

theorem backs_step (h : b.Backs v) (a : Access) : b.Backs (a.step v).2 := by
  cases inside : v.window.isWord a.offset.toNat with
  | false =>
    rw [step_of_not_isWord inside]
    exact h
  | true =>
    rw [step_of_isWord inside]
    cases a.operation.stored? (v.get a.offset.toNat) with
    | none => exact h
    | some new => exact h.set _ new

theorem backs_afterAll (h : b.Backs v) (accesses : List Access) : b.Backs (afterAll accesses v) := by
  induction accesses generalizing v with
  | nil => exact h
  | cons a rest ih => exact ih (backs_step h a)

theorem contained (h : b.Backs v) (count : v.window.length / wordSize = b.count) (a : Access) :
    a.Contained b v := by
  have named := isWord_iff_index v a.offset.toNat
  rw [View.length_words, count] at named
  cases inside : v.window.isWord a.offset.toNat with
  | false =>
    have step := step_of_not_isWord inside
    constructor
    · rw [step]
      constructor
      · rintro ⟨reply, ok⟩
        cases ok
      · intro accepted
        exact absurd (named.mpr accepted) (Bool.eq_false_iff.mp inside)
    · intro fault error
      rw [step] at error ⊢
      exact ⟨(Except.error.inj error).symm, rfl⟩
    · intro i _
      rw [step]
    · intro address _
      rw [step]
    · intro f _ reply ok
      rw [step] at ok
      cases ok
  | true =>
    have step := step_of_isWord inside
    constructor
    · rw [step]
      exact ⟨fun _ => named.mp inside, fun _ => ⟨_, rfl⟩⟩
    · intro fault error
      rw [step] at error
      cases error
    · intro i ne
      rw [step]
      cases a.operation.stored? (v.get a.offset.toNat) with
      | none => rfl
      | some new =>
        rw [Option.elim_some, View.words_set inside]
        exact List.getElem?_set_ne ne.symm
    · intro address outside
      rw [step]
      cases a.operation.stored? (v.get a.offset.toNat) with
      | none => rfl
      | some new => exact h.byte_set outside new
    · intro f modify reply ok
      rw [step, modify] at ok ⊢
      obtain rfl := Except.ok.inj ok
      refine ⟨_, rfl, ?_⟩
      change (v.set a.offset.toNat (f (v.get a.offset.toNat))).words[a.offset.toNat / wordSize]? = _
      have kept : (v.set a.offset.toNat (f (v.get a.offset.toNat))).window.isWord a.offset.toNat = true := by
        rw [Window.isWord, View.length_set]
        exact inside
      rw [View.words_getElem?_of_isWord kept, View.get_set_self inside]

end Access

/-- Whatever opens a window, it is an array of so many words: any run of accesses has the outcomes and the
words of the plain array, every access is contained in its word, and in 64-bit arithmetic none of them meets a
fault of the storage. -/
theorem window_is_checked_array {b : Backend} {fileSize : Nat} {memory : Memory} {name : String}
    {w : Window} (h : b.Opens fileSize memory name w) :
    w.length = b.length ∧ (b.words memory).length = b.count ∧
    (∀ accesses : List Access,
      Access.trace accesses ⟨w, memory⟩ = Access.traceOnWords accesses (b.words memory)) ∧
    (∀ (earlier : List Access) (a : Access), a.Contained b (Access.afterAll earlier ⟨w, memory⟩)) ∧
    (b.length < 2 ^ 64 → ∀ accesses : List Access, ∃ last : Storage,
      (b.storage memory).run? fileSize accesses =
        some ((Access.trace accesses ⟨w, memory⟩).map Prod.fst, last) ∧
      last.view name = Access.afterAll accesses ⟨w, memory⟩) := by
  refine ⟨h.length_eq, ?_, ?_, ?_, ?_⟩
  · rw [← h.words_eq, View.length_words, h.count_eq]
  · intro accesses
    rw [Access.trace_eq, h.words_eq]
  · intro earlier a
    refine Access.contained (Access.backs_afterAll h.backs earlier) ?_ a
    rw [Access.length_afterAll]
    exact h.count_eq
  · intro wide accesses
    rw [← h.view_storage]
    exact Storage.run?_eq (h.holds_storage wide) accesses

/-- Thirty bytes of a device: the last two are no word, and neither is anything near the last offset. -/
theorem window_is_checked_array_at_its_end :
    let m : Memory := ⟨fun _ => 0xA5⟩
    let b : Backend := .device 0x1000 0x1010 30
    let v : View := ⟨⟨"mem", .mapped ⟨0x1000, 0x10, 30⟩⟩, m⟩
    let accesses : List Access :=
      [⟨0x18, .modify (· + 7)⟩, ⟨0x1C, .write 0⟩, ⟨0x1A, .read⟩, ⟨0xFFFFFFFFFFFFFFFC, .read⟩,
        ⟨0x18, .getField 0xFF 0⟩]
    let outcomes : List (Except RangeFault Reply) :=
      [.ok (.word 0xA5A5A5AC), .error ⟨.registerOffset, 0x1C⟩, .error ⟨.registerOffset, 0x1A⟩,
        .error ⟨.registerOffset, 0x7FFFFFFFFFFFFFFF⟩, .ok (.word 0xAC)]
    b.Opens 0x102E m "mem" v.window ∧ (Access.trace accesses v).map Prod.fst = outcomes ∧
      ∃ last : Storage, (b.storage m).run? 0x102E accesses = some (outcomes, last) := by
  intro m b v accesses outcomes
  have opens : b.Opens 0x102E m "mem" v.window :=
    .device (k := 12) rfl (by decide) (by decide) (by decide) rfl
  obtain ⟨-, -, traced, -, stored⟩ := window_is_checked_array opens
  have fromWords : (Access.trace accesses v).map Prod.fst = outcomes := by
    rw [traced]
    decide +kernel
  obtain ⟨last, run, -⟩ := stored (by decide) accesses
  rw [fromWords] at run
  exact ⟨opens, fromWords, last, run⟩

end LockServo.Register

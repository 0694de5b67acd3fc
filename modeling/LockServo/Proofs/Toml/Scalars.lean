import Mathlib.Data.List.TakeWhile
import LockServo.Proofs.Decimal.Notation
import LockServo.Proofs.Toml.Canonical

/-!
# Numbers and words read back

The text of a number, a truth value or a double is read as that value. Documents have one NaN, so a NaN
comes back without its sign; every other double comes back as it was.
-/

namespace LockServo

namespace Text

theorem hexDigit?_of_isDigit {c : Char} (h : c.isDigit = true) :
    hexDigit? c = some (c.toNat - '0'.toNat) ∧ c.toNat - '0'.toNat < 10 := by
  simp only [Char.isDigit, Bool.and_eq_true, decide_eq_true_eq] at h
  obtain ⟨low, high⟩ := h
  refine ⟨if_pos ⟨low, high⟩, ?_⟩
  have bound : c.toNat ≤ '9'.toNat := high
  have nine : '9'.toNat = 57 := rfl
  have zero : '0'.toNat = 48 := rfl
  omega

theorem foldlM_digits {s : List Char} (digits : ∀ c ∈ s, c.isDigit = true) (n : Nat) :
    s.foldlM (fun n c =>
      match hexDigit? c with
      | some d => if d < 10 then some (n * 10 + d) else none
      | none => none) n = some (Nat.ofDigitChars 10 s n) := by
  induction s generalizing n with
  | nil => rfl
  | cons c s ih =>
    obtain ⟨value, small⟩ := hexDigit?_of_isDigit (digits c List.mem_cons_self)
    simp only [List.foldlM_cons, value, if_pos small, Nat.ofDigitChars_cons]
    rw [Nat.mul_comm 10]
    exact ih (fun c member => digits c (List.mem_cons_of_mem _ member)) _

theorem number?_digits {s : List Char} (nonempty : s ≠ []) (digits : ∀ c ∈ s, c.isDigit = true) :
    number? 10 s = some (Nat.ofDigitChars 10 s 0) := by
  rw [number?, List.isEmpty_eq_false_iff.mpr nonempty]
  exact foldlM_digits digits 0

end Text

namespace Toml

/-! ## Runs of digits -/

theorem isDigit_ten {c : Char} (h : c.isDigit = true) : digits?.isDigit 10 c = true := by
  obtain ⟨value, small⟩ := Text.hexDigit?_of_isDigit h
  rw [digits?.isDigit, value]
  exact decide_eq_true small

theorem digits?_digits {s : List Char} (nonempty : s ≠ []) (digits : ∀ c ∈ s, c.isDigit = true) :
    digits? 10 s = some s := by
  induction s with
  | nil => exact absurd rfl nonempty
  | cons c s ih =>
    have first := isDigit_ten (digits c List.mem_cons_self)
    cases s with
    | nil => simp [digits?, first]
    | cons d s =>
      have plain : d ≠ '_' := by
        rintro rfl
        exact absurd (digits '_' (by simp)) (by decide)
      rw [digits?, if_pos first, ih (by simp) fun c member => digits c (List.mem_cons_of_mem _ member)]
      · rfl
      · simp
      · rintro rest starts
        cases starts
        exact plain rfl

theorem digits?_eq_none {base : Nat} {s : List Char} {c : Char} (member : c ∈ s)
    (noDigit : digits?.isDigit base c = false) (noSeparator : c ≠ '_') : digits? base s = none := by
  fun_induction digits? base s with
  | case1 => rfl
  | case2 d digit =>
    obtain rfl := List.mem_singleton.mp member
    rw [noDigit] at digit
    contradiction
  | case3 d noDigit => rfl
  | case4 d rest digit ih =>
    rcases List.mem_cons.mp member with rfl | later
    · rw [noDigit] at digit
      contradiction
    · rcases List.mem_cons.mp later with rfl | later
      · exact absurd rfl noSeparator
      · rw [ih later, Option.map_none]
  | case5 d rest noDigit => rfl
  | case6 d rest _ _ digit ih =>
    rcases List.mem_cons.mp member with rfl | later
    · rw [noDigit] at digit
      contradiction
    · rw [ih later, Option.map_none]
  | case7 d rest noDigit => rfl

theorem wholeDigits?_digits {s : List Char} (nonempty : s ≠ []) (digits : ∀ c ∈ s, c.isDigit = true)
    (leading : ∀ c rest, s ≠ '0' :: c :: rest) : wholeDigits? s = some s := by
  simp only [wholeDigits?, digits?_digits nonempty digits, Option.bind_eq_bind, Option.bind_some]

theorem wholeDigits?_eq_none {s : List Char} {c : Char} (member : c ∈ s)
    (noDigit : digits?.isDigit 10 c = false) (noSeparator : c ≠ '_') : wholeDigits? s = none := by
  simp [wholeDigits?, digits?_eq_none member noDigit noSeparator]

/-! ## Signs, points and exponents -/

theorem sign_digits (negative : Bool) {s : List Char} (h : ∀ c ∈ s.head?, c.isDigit = true) :
    sign ((Decimal.sign negative).toList ++ s) = (negative, s) := by
  cases negative with
  | true => rfl
  | false =>
    cases s with
    | nil => rfl
    | cons c s =>
      have digit : c.isDigit = true := h c rfl
      simp only [Decimal.sign, Bool.false_eq_true, ↓reduceIte, String.toList_empty, List.nil_append]
      unfold sign
      split
      · rename_i heq
        cases heq
        exact absurd digit (by decide)
      · rename_i heq
        cases heq
        exact absurd digit (by decide)
      · rfl

theorem cut_eq_none {isMark : Char → Bool} {s : List Char} (h : ∀ c ∈ s, isMark c = false) :
    cut isMark s = (s, none) := by
  have empty : s.dropWhile (!isMark ·) = [] := by
    rw [List.dropWhile_eq_nil_iff]
    intro c member
    simp [h c member]
  simp [cut, empty]

theorem cut_mark {isMark : Char → Bool} {s : List Char} (h : ∀ c ∈ s, isMark c = false) {c : Char}
    (mark : isMark c = true) (rest : List Char) : cut isMark (s ++ c :: rest) = (s, some rest) := by
  have inside : ∀ c ∈ s, (!isMark c) = true := by
    intro c member
    simp [h c member]
  simp [cut, List.dropWhile_append_of_pos inside, List.takeWhile_append_of_pos inside, mark]

/-! ## What a scalar is not -/

def startsNumber : List Char → Bool
  | '-' :: c :: _ => c.isDigit
  | c :: _ => c.isDigit
  | [] => false

theorem word?_number {s : List Char} (h : startsNumber s = true) : word? s = none := by
  have differs {text : String} (word : startsNumber text.toList = false) : String.ofList s ≠ text := by
    rintro rfl
    rw [String.toList_ofList, h] at word
    contradiction
  unfold word?
  split
  case h_9 => rfl
  all_goals exact absurd ‹_› (differs (by decide))

theorem startsNumber_sign (negative : Bool) {s : List Char} (nonempty : s ≠ [])
    (h : ∀ c ∈ s.head?, c.isDigit = true) :
    startsNumber ((Decimal.sign negative).toList ++ s) = true := by
  obtain ⟨c, s, rfl⟩ := List.exists_cons_of_ne_nil nonempty
  have digit : c.isDigit = true := h c rfl
  cases negative with
  | true => exact digit
  | false =>
    simp only [Decimal.sign, Bool.false_eq_true, ↓reduceIte, String.toList_empty, List.nil_append]
    unfold startsNumber
    split
    · rename_i heq
      cases heq
      exact absurd digit (by decide)
    · rename_i heq
      cases heq
      exact digit
    · contradiction

theorem basedInteger?_number {s : List Char} (point : ∀ c ∈ s.tail.head?, c.isDigit = true ∨ c = '.') :
    basedInteger? s = none := by
  unfold basedInteger?
  split
  case h_4 => rfl
  all_goals
    have mark := point _ rfl
    exact absurd mark (by decide)

/-! ## Values -/

theorem decimalInteger?_digits (negative : Bool) {s : List Char} (nonempty : s ≠ [])
    (digits : ∀ c ∈ s, c.isDigit = true) (leading : ∀ c rest, s ≠ '0' :: c :: rest) :
    decimalInteger? ((Decimal.sign negative).toList ++ s) =
      some (integer (if negative then -(Nat.ofDigitChars 10 s 0 : Int) else Nat.ofDigitChars 10 s 0)) := by
  have head : ∀ c ∈ s.head?, c.isDigit = true := fun c member => digits c (List.mem_of_mem_head? member)
  simp [decimalInteger?, sign_digits negative head, wholeDigits?_digits nonempty digits leading,
    Text.number?_digits nonempty digits]

theorem isDigit_ne {c d : Char} (digit : c.isDigit = true) (other : d.isDigit = false) : c ≠ d := by
  rintro rfl
  rw [digit] at other
  contradiction

section

variable {x : Decimal} {whole fraction : List Char} (layout : x.Layout whole fraction)

include layout

theorem layout_chars : ∀ c ∈ whole ++ '.' :: fraction, c.isDigit = true ∨ c = '.' := by
  intro c member
  rcases List.mem_append.mp member with digit | behind
  · exact .inl (layout.whole_isDigit c digit)
  · rcases List.mem_cons.mp behind with rfl | digit
    · exact .inr rfl
    · exact .inl (layout.fraction_isDigit c digit)

theorem layout_head : ∀ c ∈ (whole ++ '.' :: fraction).head?, c.isDigit = true := by
  intro c member
  rw [List.head?_append_of_ne_nil _ layout.whole_ne_nil] at member
  exact layout.whole_isDigit c (List.mem_of_mem_head? member)

theorem decimalFloat?_layout : decimalFloat? x.fractional.toList =
    some (if x.toBinary64.isFinite then .float x.toBinary64 else .unreadable) := by
  have unmarked : ∀ c ∈ whole ++ '.' :: fraction, (c == 'e' || c == 'E') = false := by
    intro c member
    rcases layout_chars layout c member with digit | rfl
    · simp [isDigit_ne digit (d := 'e') (by decide), isDigit_ne digit (d := 'E') (by decide)]
    · decide
  have pointless : ∀ c ∈ whole, (c == '.') = false := by
    intro c member
    simp [isDigit_ne (layout.whole_isDigit c member) (d := '.') (by decide)]
  have digits : ∀ c ∈ whole ++ fraction, c.isDigit = true := by
    intro c member
    rcases List.mem_append.mp member with digit | digit
    · exact layout.whole_isDigit c digit
    · exact layout.fraction_isDigit c digit
  have nonempty : whole ++ fraction ≠ [] := List.append_ne_nil_of_left_ne_nil layout.whole_ne_nil _
  rw [layout.text, List.append_assoc]
  simp only [decimalFloat?, sign_digits x.negative (layout_head layout), cut_eq_none unmarked,
    cut_mark pointless (beq_self_eq_true '.'), exponent?,
    wholeDigits?_digits layout.whole_ne_nil layout.whole_isDigit layout.leading,
    digits?_digits layout.fraction_ne_nil layout.fraction_isDigit, Text.number?_digits nonempty digits,
    Option.bind_eq_bind, Option.bind_some, Int.zero_sub, layout.value]
  rfl

theorem scalar?_layout : scalar? x.fractional.toList =
    some (if x.toBinary64.isFinite then .float x.toBinary64 else .unreadable) := by
  have head := layout_head layout
  have number : startsNumber x.fractional.toList = true := by
    rw [layout.text, List.append_assoc]
    exact startsNumber_sign x.negative (by simp) head
  have noInteger : decimalInteger? x.fractional.toList = none := by
    have point : wholeDigits? (whole ++ '.' :: fraction) = none :=
      wholeDigits?_eq_none (c := '.') (by simp) (by decide) (by decide)
    rw [layout.text, List.append_assoc]
    simp [decimalInteger?, sign_digits x.negative head, point]
  have noBase : basedInteger? x.fractional.toList = none := by
    apply basedInteger?_number
    rw [layout.text, List.append_assoc]
    intro c member
    cases sign : x.negative with
    | true =>
      rw [sign] at member
      exact .inl (head c member)
    | false =>
      rw [sign] at member
      exact layout_chars layout c (List.mem_of_mem_tail (List.mem_of_mem_head? member))
  rw [scalar?, word?_number number, noInteger, noBase, decimalFloat?_layout layout]
  rfl

end

/-- Characters of numbers and words. None of them ends a scalar or opens a string or a bracket. -/
def isWordChar (c : Char) : Bool := c.isAlphanum || c == '.' || c == '-'

theorem isWordChar_of_isDigit {c : Char} (h : c.isDigit = true) : isWordChar c = true := by
  simp [isWordChar, Char.isAlphanum, h]

theorem ne_of_isWordChar {c d : Char} (word : isWordChar c = true) (other : isWordChar d = false) :
    c ≠ d := by
  rintro rfl
  rw [word] at other
  contradiction

structure Word (s : List Char) (v : Value) : Prop where
  nonempty : s ≠ []
  chars : ∀ c ∈ s, isWordChar c = true
  value : scalar? s = some v

theorem word_boolean (b : Bool) : Word (if b then "true" else "false").toList (.boolean b) := by
  cases b <;> exact ⟨by decide, List.all_eq_true.mp (by decide), rfl⟩

theorem word_infinite (negative : Bool) :
    Word (Decimal.sign negative ++ "inf").toList (.float (.infinite negative)) := by
  cases negative <;> exact ⟨by decide, List.all_eq_true.mp (by decide), rfl⟩

theorem toDigits_leading (n : Nat) (c : Char) (rest : List Char) : Nat.toDigits 10 n ≠ '0' :: c :: rest := by
  intro starts
  rcases Nat.eq_zero_or_pos n with rfl | pos
  · cases starts
  · have head := head?_toDigits pos
    rw [starts] at head
    exact head rfl

theorem toList_toString (n : Int) :
    (toString n).toList = (Decimal.sign (n < 0)).toList ++ Nat.toDigits 10 n.natAbs := by
  cases n with
  | ofNat n =>
    have sign : decide (Int.ofNat n < 0) = false := by simp
    rw [sign]
    change (toString n).toList = _
    rw [Nat.toString_eq_ofList_toDigits, String.toList_ofList]
    rfl
  | negSucc n =>
    have sign : decide (Int.negSucc n < 0) = true := decide_eq_true (Int.negSucc_lt_zero n)
    rw [sign]
    change ("-" ++ toString (n + 1)).toList = _
    simp only [String.toList_append, Nat.toString_eq_ofList_toDigits, String.toList_ofList]
    rfl

theorem isWordChar_sign (negative : Bool) : ∀ c ∈ (Decimal.sign negative).toList, isWordChar c = true := by
  cases negative <;> exact List.all_eq_true.mp (by decide)

theorem word_integer {n : Int} (low : -((1 <<< 127 : Nat) : Int) ≤ n) (high : n < ((1 <<< 128 : Nat) : Int)) :
    Word (toString n).toList (.integer n) := by
  have number : startsNumber ((Decimal.sign (n < 0)).toList ++ Nat.toDigits 10 n.natAbs) = true :=
    startsNumber_sign _ Nat.toDigits_ne_nil fun c member =>
      isDigit_of_mem_toDigits c (List.mem_of_mem_head? member)
  have read := decimalInteger?_digits (n < 0) Nat.toDigits_ne_nil isDigit_of_mem_toDigits
    (toDigits_leading n.natAbs)
  have whole : (if (decide (n < 0)) = true then -(n.natAbs : Int) else n.natAbs) = n := by
    rcases Int.lt_or_le n 0 with below | above
    · rw [if_pos (decide_eq_true below)]
      omega
    · rw [if_neg (by simpa using above)]
      omega
  have range : integer n = .integer n := if_pos ⟨low, high⟩
  rw [Nat.ofDigitChars_ten_toDigits, whole, range] at read
  rw [toList_toString]
  refine ⟨List.append_ne_nil_of_right_ne_nil _ Nat.toDigits_ne_nil, fun c member => ?_, ?_⟩
  · rcases List.mem_append.mp member with sign | digit
    · exact isWordChar_sign _ c sign
    · exact isWordChar_of_isDigit (isDigit_of_mem_toDigits c digit)
  · rw [scalar?, word?_number number]
    exact congrArg (· <|> _) read

theorem word_fractional {d : Decimal} (zero : d.digits = 0 → d.exponent ≤ 0)
    (finite : d.toBinary64.isFinite = true) : Word d.fractional.toList (.float d.toBinary64) := by
  obtain ⟨whole, fraction, layout⟩ := Decimal.exists_layout zero
  refine ⟨?_, ?_, ?_⟩
  · rw [layout.text]
    simp
  · intro c member
    rw [layout.text, List.append_assoc] at member
    rcases List.mem_append.mp member with sign | number
    · exact isWordChar_sign _ c sign
    · rcases layout_chars layout c number with digit | rfl
      · exact isWordChar_of_isDigit digit
      · decide
  · rw [scalar?_layout layout, if_pos finite]

/-- The one NaN of a document has no sign. -/
theorem word_float (x : Binary64) : Word x.toDocument.toList (.float x.canonical) := by
  cases x with
  | nan negative =>
    have text : (Binary64.nan negative).toDocument = "nan" := rfl
    rw [text]
    exact ⟨by decide, List.all_eq_true.mp (by decide), rfl⟩
  | infinite negative => exact word_infinite negative
  | finite negative units representable =>
    obtain ⟨d, shortest, reads, zero⟩ := Decimal.exists_shortest .up negative representable
    have text : (Binary64.finite negative units representable).toDocument = d.fractional := by
      simp only [Binary64.toDocument, shortest]
    have word := word_fractional zero (by rw [reads]; rfl)
    rwa [reads, ← text] at word

end Toml

end LockServo

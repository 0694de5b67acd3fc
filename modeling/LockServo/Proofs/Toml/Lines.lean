import LockServo.Proofs.Toml.Quoted
import LockServo.Proofs.Toml.Scalars

/-!
# Lines read back

A document is written a line at a time. A header line is read as its header, a line with a key as the
pair of that key and its value, and lines one after another, with or without empty lines between them, as
their statements in order.
-/

namespace LockServo.Toml

/-! ## Characters -/

theorem ne_of_isBare {c d : Char} (bare : isBare c = true) (other : isBare d = false) : c ≠ d := by
  rintro rfl
  rw [bare] at other
  contradiction

theorem endsScalar_of_isWordChar {c : Char} (h : isWordChar c = true) : endsScalar c = false := by
  have other (d : Char) (mark : isWordChar d = false) : (c == d) = false :=
    beq_eq_false_iff_ne.mpr (ne_of_isWordChar h mark)
  simp only [endsScalar, isSpace, Bool.or_eq_false_iff]
  repeat' apply And.intro
  all_goals exact other _ (by decide)

/-- A line starts where spaces, line breaks and comments end, and not with a byte order mark. -/
def StartsLine (s : List Char) : Prop :=
  ∃ c rest, s = c :: rest ∧ isSpace c = false ∧ c ≠ '#' ∧ c ≠ '\n' ∧ c ≠ '\r' ∧ c ≠ '\ufeff'

theorem StartsLine.skipSpaces {s : List Char} (h : StartsLine s) : skipSpaces s = s := by
  obtain ⟨c, rest, rfl, space, -⟩ := h
  simp [Toml.skipSpaces, space]

theorem StartsLine.skipLines? {s : List Char} (h : StartsLine s) : skipLines? s = some s := by
  have skipped := h.skipSpaces
  obtain ⟨c, rest, rfl, -, comment, line, carriage, -⟩ := h
  have noBreak : lineBreak? (c :: rest) = none := by
    unfold lineBreak?
    split <;> simp_all
  rw [Toml.skipLines?.eq_def, skipped]
  simp only [noBreak]
  split <;> simp_all

theorem skipLines?_breaks {s : List Char} (h : StartsLine s ∨ s = []) (n : Nat) :
    skipLines? (List.replicate n '\n' ++ s) = some s := by
  induction n with
  | zero =>
    rcases h with starts | rfl
    · exact starts.skipLines?
    · rw [skipLines?.eq_def]
      rfl
  | succ n ih =>
    rw [List.replicate_succ, List.cons_append, skipLines?.eq_def]
    have here : skipSpaces ('\n' :: (List.replicate n '\n' ++ s)) = '\n' :: (List.replicate n '\n' ++ s) := rfl
    simp only [here, lineBreak?]
    rw [if_pos (by simp), ih]
    rfl

theorem endLine?_break (rest : List Char) : endLine? ('\n' :: rest) = some rest := rfl

/-! ## Keys -/

section

variable {key : String} (bare : IsBareKey key)

include bare

theorem renderKey_bare : renderKey key = key := by
  have filled : key.isEmpty = false := by
    rw [Bool.eq_false_iff, Ne, String.isEmpty_iff]
    rintro rfl
    exact bare.1 rfl
  simp only [renderKey, filled, bare.2, Bool.not_false, Bool.and_self, if_true]

theorem startsLine_key (rest : List Char) : StartsLine (key.toList ++ rest) := by
  obtain ⟨c, s, start⟩ := List.exists_cons_of_ne_nil bare.1
  have letter : isBare c = true := bare.letters c (start ▸ List.mem_cons_self)
  refine ⟨c, s ++ rest, by rw [start, List.cons_append], ?_, ne_of_isBare letter (by decide),
    ne_of_isBare letter (by decide), ne_of_isBare letter (by decide), ne_of_isBare letter (by decide)⟩
  simp [isSpace, ne_of_isBare letter (d := ' ') (by decide), ne_of_isBare letter (d := '\t') (by decide)]

/-- The first character of a bare key is none of those that quote, bracket or end something. -/
theorem head_key_ne (rest tail : List Char) {c : Char} (mark : isBare c = false) :
    key.toList ++ rest ≠ c :: tail := by
  intro same
  obtain ⟨d, s, start⟩ := List.exists_cons_of_ne_nil bare.1
  rw [start, List.cons_append] at same
  exact ne_of_isBare (bare.letters d (start ▸ List.mem_cons_self)) mark (List.cons.inj same).1

theorem simpleKey?_bare {c : Char} (mark : isBare c = false) (rest : List Char) :
    simpleKey? (key.toList ++ c :: rest) = some (key, c :: rest) := by
  have name : (key.toList ++ c :: rest).takeWhile isBare = key.toList := by
    rw [List.takeWhile_append_of_pos bare.letters, List.takeWhile_cons_of_neg (by simp [mark]), List.append_nil]
  have behind : (key.toList ++ c :: rest).dropWhile isBare = c :: rest := by
    rw [List.dropWhile_append_of_pos bare.letters, List.dropWhile_cons_of_neg (by simp [mark])]
  unfold simpleKey?
  split
  · exact absurd ‹_› (head_key_ne bare _ _ (by decide))
  · exact absurd ‹_› (head_key_ne bare _ _ (by decide))
  · simp [name, behind, bare.1]

end

theorem renderPath_bare {path : List String} (bare : ∀ key ∈ path, IsBareKey key) :
    (renderPath path).toList = List.intercalate ['.'] (path.map String.toList) := by
  have keys : path.map renderKey = path := by
    rw [List.map_congr_left fun key member => renderKey_bare (bare key member)]
    exact List.map_id path
  rw [renderPath, keys, String.toList_intercalate]
  rfl

section

variable {path : List String} (nonempty : path ≠ []) (bare : ∀ key ∈ path, IsBareKey key)
  (mark : Char) (tail : List Char) {c : Char} {rest : List Char} (other : isBare mark = false)
  (skip : skipSpaces (mark :: tail) = c :: rest) (point : c ≠ '.')

include nonempty bare other skip point

theorem names?_path :
    names? (List.intercalate ['.'] (path.map String.toList) ++ mark :: tail) = some (path, c :: rest) := by
  induction path with
  | nil => exact absurd rfl nonempty
  | cons key path ih =>
    have here := bare key List.mem_cons_self
    cases path with
    | nil =>
      rw [List.map_singleton, List.intercalate_singleton, names?.eq_def,
        (startsLine_key here _).skipSpaces, simpleKey?_bare here other]
      simp only [Option.bind_eq_bind, Option.bind_some, skip]
      split
      · exact absurd (List.cons.inj ‹_›).1 point
      · rfl
    | cons next path =>
      have later := ih (by simp) fun key member => bare key (List.mem_cons_of_mem _ member)
      have point : skipSpaces ('.' :: (List.intercalate ['.'] ((next :: path).map String.toList) ++
          mark :: tail)) = '.' :: (List.intercalate ['.'] ((next :: path).map String.toList) ++
          mark :: tail) := rfl
      rw [List.map_cons, List.map_cons, List.intercalate_cons_cons, ← List.map_cons, List.append_assoc,
        List.append_assoc, names?.eq_def, (startsLine_key here _).skipSpaces, List.singleton_append,
        simpleKey?_bare here (by decide)]
      simp only [Option.bind_eq_bind, Option.bind_some, point]
      rw [if_pos, later]
      · rfl
      · simp only [List.length_append, List.length_cons]
        omega

theorem key?_path (short : path.length ≤ depthLimit) :
    key? (List.intercalate ['.'] (path.map String.toList) ++ mark :: tail) = some (path, c :: rest) := by
  simp [key?, names?_path nonempty bare mark tail other skip point, short]

end

/-! ## Values -/

/-- A text that does not start with a bracket or a space, and is read as a value when a line ends behind
it. -/
structure ReadsAs (s : List Char) (v : Value) : Prop where
  starts : ∀ rest, skipSpaces (s ++ rest) = s ++ rest
  value : ∀ rest, value? depthLimit (s ++ '\n' :: rest) = some (v, '\n' :: rest)

theorem value?_plain {s : List Char} (square : s.head? ≠ some '[') (curly : s.head? ≠ some '\x7b') :
    value? depthLimit s = plainValue? s := by
  rw [show depthLimit = 79 + 1 from rfl, value?]
  dsimp only
  split
  · exact absurd rfl square
  · exact absurd rfl curly
  · rfl

theorem Word.readsAs {s : List Char} {v : Value} (word : Word s v) : ReadsAs s v := by
  have value := word.value
  have inside : ∀ c ∈ s, (!endsScalar c) = true := by
    intro c member
    simp [endsScalar_of_isWordChar (word.chars c member)]
  have text (rest : List Char) : scalarText (s ++ '\n' :: rest) = (s, '\n' :: rest) := by
    have ends : (!endsScalar '\n') = false := rfl
    simp [scalarText, List.takeWhile_append_of_pos inside, List.dropWhile_append_of_pos inside, ends]
  obtain ⟨c, tail, rfl⟩ := List.exists_cons_of_ne_nil word.nonempty
  have first : isWordChar c = true := word.chars c List.mem_cons_self
  have other {d : Char} (mark : isWordChar d = false) : c ≠ d := ne_of_isWordChar first mark
  constructor
  · intro rest
    simp [skipSpaces, isSpace, other (d := ' ') (by decide), other (d := '\t') (by decide)]
  · intro rest
    rw [value?_plain]
    · unfold plainValue?
      split
      · exact absurd (List.cons.inj ‹_›).1 (other (by decide))
      · exact absurd (List.cons.inj ‹_›).1 (other (by decide))
      · rw [text]
        simp [value]
    · simp [other (d := '[') (by decide)]
    · simp [other (d := '\x7b') (by decide)]

theorem readsAs_quote (text : String) : ReadsAs (quote text).toList (.string text) := by
  have read (rest : List Char) :
      string? ((quote text).toList ++ '\n' :: rest) = some (text.toList, '\n' :: rest) :=
    string?_quote text (by simp) (by simp)
  have head := head?_quote text
  generalize (quote text).toList = s at read head
  cases s with
  | nil => simp at head
  | cons c s =>
    simp only [List.head?_cons, Option.some.injEq] at head
    constructor
    · intro rest
      rcases head with rfl | rfl <;> rfl
    · intro rest
      have value : plainValue? (c :: s ++ '\n' :: rest) = some (.string text, '\n' :: rest) := by
        have mapped := congrArg (Option.map fun found : List Char × List Char =>
          (Value.string (String.ofList found.1), found.2)) (read rest)
        simp only [Option.map_some, String.ofList_toList] at mapped
        rcases head with rfl | rfl <;> exact mapped
      rw [value?_plain, value]
      · rcases head with rfl | rfl <;> simp
      · rcases head with rfl | rfl <;> simp

theorem readsAs_nothing : ReadsAs ['[', ']'] (.array []) := by
  constructor
  · intro rest
    rfl
  · intro rest
    have skip : skipLines? (']' :: '\n' :: rest) = some (']' :: '\n' :: rest) :=
      StartsLine.skipLines? ⟨']', _, rfl, rfl, by decide, by decide, by decide, by decide⟩
    have closed : items? ']' (value? 79) (']' :: '\n' :: rest) = some ([], '\n' :: rest) := by
      rw [items?.eq_def, skip]
      rfl
    rw [show depthLimit = 79 + 1 from rfl, value?]
    simp only [List.cons_append, List.nil_append, closed]
    rfl

theorem Leaf.readsAs {v : Value} (h : Leaf v) : ReadsAs (renderInline v).toList v.canonical := by
  cases h with
  | string text => exact readsAs_quote text
  | integer low high => exact (word_integer low high).readsAs
  | float x => exact (word_float x).readsAs
  | boolean b => exact (word_boolean b).readsAs
  | nothing => exact readsAs_nothing

/-! ## Lines -/

structure Line (text : String) (statement : Statement) : Prop where
  starts : StartsLine text.toList
  reads : ∀ rest, statement? (text.toList ++ '\n' :: rest) = some (statement, '\n' :: rest)

theorem StartsLine.append {s : List Char} (h : StartsLine s) (rest : List Char) : StartsLine (s ++ rest) := by
  obtain ⟨c, tail, rfl, others⟩ := h
  exact ⟨c, tail ++ rest, rfl, others⟩

theorem intercalate_starts (key : String) (path : List String) :
    ∃ rest, List.intercalate ['.'] ((key :: path).map String.toList) = key.toList ++ rest := by
  cases path with
  | nil => exact ⟨[], by simp⟩
  | cons next path =>
    refine ⟨['.'] ++ List.intercalate ['.'] ((next :: path).map String.toList), ?_⟩
    rw [List.map_cons, List.map_cons, List.intercalate_cons_cons, List.append_assoc]

theorem line_pair {key text : String} {v : Value} (bare : IsBareKey key) (h : ReadsAs text.toList v) :
    Line (renderKey key ++ " = " ++ text) (.pair [key] v) := by
  have written : (renderKey key ++ " = " ++ text).toList =
      key.toList ++ ' ' :: '=' :: ' ' :: text.toList := by
    simp [renderKey_bare bare]
  constructor
  · rw [written]
    exact startsLine_key bare _
  · intro rest
    have path : key? (key.toList ++ ' ' :: '=' :: ' ' :: (text.toList ++ '\n' :: rest)) =
        some ([key], '=' :: ' ' :: (text.toList ++ '\n' :: rest)) := by
      have read := key?_path (List.cons_ne_nil key []) (by simpa using bare) ' '
        ('=' :: ' ' :: (text.toList ++ '\n' :: rest)) rfl rfl (by decide) (Nat.le_add_left 1 79)
      rwa [List.map_singleton, List.intercalate_singleton] at read
    have behind : skipSpaces (' ' :: (text.toList ++ '\n' :: rest)) = text.toList ++ '\n' :: rest :=
      h.starts _
    have pair : pair? (some ∘ skipSpaces) (value? depthLimit)
        (key.toList ++ ' ' :: '=' :: ' ' :: (text.toList ++ '\n' :: rest)) =
        some (([key], v), '\n' :: rest) := by
      simp only [pair?, path, Option.bind_eq_bind, Option.bind_some, Function.comp_apply]
      have sign : skipSpaces ('=' :: ' ' :: (text.toList ++ '\n' :: rest)) =
          '=' :: ' ' :: (text.toList ++ '\n' :: rest) := rfl
      simp only [sign, behind, h.value, Option.bind_some]
      rfl
    rw [written, List.append_assoc]
    simp only [List.cons_append]
    unfold statement?
    split
    · exact absurd ‹_› (head_key_ne bare _ _ (by decide))
    · exact absurd ‹_› (head_key_ne bare _ _ (by decide))
    · rw [pair]
      rfl

section

variable {path : List String} (nonempty : path ≠ []) (bare : ∀ key ∈ path, IsBareKey key)
  (short : path.length ≤ depthLimit)

include nonempty bare short

theorem line_header : Line ("[" ++ renderPath path ++ "]") (.header path) := by
  have written : ("[" ++ renderPath path ++ "]").toList =
      '[' :: (List.intercalate ['.'] (path.map String.toList) ++ [']']) := by
    simp [renderPath_bare bare]
  constructor
  · rw [written]
    exact ⟨'[', _, rfl, rfl, by decide, by decide, by decide, by decide⟩
  · intro rest
    have read := key?_path nonempty bare ']' ('\n' :: rest) rfl rfl (by decide) short
    have single (tail : List Char) : List.intercalate ['.'] (path.map String.toList) ++
        ']' :: '\n' :: rest ≠ '[' :: tail := by
      obtain ⟨key, more, rfl⟩ := List.exists_cons_of_ne_nil nonempty
      obtain ⟨front, starts⟩ := intercalate_starts key more
      rw [starts, List.append_assoc]
      exact head_key_ne (bare key List.mem_cons_self) _ _ (by decide)
    rw [written, List.cons_append, List.append_assoc]
    simp only [List.cons_append, List.nil_append]
    unfold statement?
    split
    · exact absurd (List.cons.inj ‹_›).2 (single _)
    · rename_i heq
      cases heq
      simp only [read, Option.bind_eq_bind, Option.bind_some]
      rfl
    · rename_i other
      exact absurd rfl (other _)

theorem line_element : Line ("[[" ++ renderPath path ++ "]]") (.element path) := by
  have written : ("[[" ++ renderPath path ++ "]]").toList =
      '[' :: '[' :: (List.intercalate ['.'] (path.map String.toList) ++ [']', ']']) := by
    simp [renderPath_bare bare]
  constructor
  · rw [written]
    exact ⟨'[', _, rfl, rfl, by decide, by decide, by decide, by decide⟩
  · intro rest
    have read := key?_path nonempty bare ']' (']' :: '\n' :: rest) rfl rfl (by decide) short
    rw [written, List.cons_append, List.cons_append, List.append_assoc]
    simp only [List.cons_append, List.nil_append, statement?, read, Option.bind_eq_bind, Option.bind_some]
    rfl

end

/-! ## Texts -/

inductive Lines : List Char → List Statement → Prop
  | nil : Lines [] []
  | blank {s : List Char} {statements : List Statement} (rest : Lines s statements) :
    Lines ('\n' :: s) statements
  | line {text : String} {statement : Statement} {s : List Char} {statements : List Statement}
    (line : Line text statement) (rest : Lines s statements) :
    Lines (text.toList ++ '\n' :: s) (statement :: statements)

theorem Lines.append {s t : List Char} {a b : List Statement} (first : Lines s a) (second : Lines t b) :
    Lines (s ++ t) (a ++ b) := by
  induction first with
  | nil => exact second
  | blank _ ih => exact .blank ih
  | line line _ ih =>
    rw [List.append_assoc]
    exact .line line ih

theorem Lines.statements?_breaks {s : List Char} {statements : List Statement} (h : Lines s statements)
    (n : Nat) : statements? (List.replicate n '\n' ++ s) = some statements := by
  induction h generalizing n with
  | nil =>
    rw [statements?.eq_def, skipLines?_breaks (.inr rfl)]
    rfl
  | blank _ ih =>
    have shift : ∀ s : List Char, List.replicate n '\n' ++ '\n' :: s = List.replicate (n + 1) '\n' ++ s := by
      intro s
      rw [List.replicate_succ', List.append_assoc, List.singleton_append]
    rw [shift]
    exact ih (n + 1)
  | @line text statement s statements line _ ih =>
    have start := skipLines?_breaks (.inl (line.starts.append ('\n' :: s))) n
    have later : statements? s = some statements := ih 0
    rw [statements?.eq_def, start]
    simp only [Option.bind_eq_bind, Option.bind_some]
    split
    · rename_i empty
      simp at empty
    · simp only [line.reads, endLine?_break, Option.bind_some]
      rw [if_pos, later]
      · rfl
      · simp only [List.length_append, List.length_cons]
        omega

/-- A text of lines is read as their statements. -/
theorem Lines.statements? {s : List Char} {statements : List Statement} (h : Lines s statements) :
    statements? s = some statements := h.statements?_breaks 0

end LockServo.Toml

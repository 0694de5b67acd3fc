import LockServo.Toml.Text

/-!
# Strings read back

Whatever form `quote` takes for a text, reading it gives the text and what is behind the closing quotes.
The basic forms hold every text; the literal ones hold the texts that `quote` picks them for. In the
forms with three quotes on each side, a run of quotes in the text is followed through until it is known
to be no closing one.
-/

namespace LockServo.Toml

/-! ## Escapes -/

theorem isControl_of_needsEscape {c : Char} (plain : needsEscape c = false) (line : c ≠ '\n') :
    isControl c = false := by
  simpa [needsEscape, line] using plain

theorem codePoint?_upperHex :
    ∀ n < 128, (upperHex n).length = 4 ∧ codePoint? (upperHex n) = some (Char.ofNat n) := by
  decide

theorem toNat_lt_of_needsEscape {c : Char} (h : needsEscape c = true) : c.toNat < 128 := by
  simp only [needsEscape, isControl, Bool.and_eq_true, Bool.or_eq_true, decide_eq_true_eq,
    beq_iff_eq] at h
  rcases h.1 with ⟨low, -⟩ | rfl
  · omega
  · decide

theorem escape?_code {c : Char} (h : needsEscape c = true) (tail : List Char) :
    escape? ('u' :: upperHex c.toNat ++ tail) = some (c, tail) := by
  obtain ⟨length, code⟩ := codePoint?_upperHex c.toNat (toNat_lt_of_needsEscape h)
  rw [Char.ofNat_toNat] at code
  generalize upperHex c.toNat = digits at length code
  obtain ⟨a, b, d, e, rfl⟩ : ∃ a b d e, digits = [a, b, d, e] := by
    rcases digits with _ | ⟨a, _ | ⟨b, _ | ⟨d, _ | ⟨e, _ | _⟩⟩⟩⟩ <;> simp at length ⊢
  simp [escape?, code]

inductive Escaped (c : Char) : List Char → Prop
  | escape (mark : Char) (code : List Char) (visible : mark ≠ ' ' ∧ mark ≠ '\t' ∧ mark ≠ '\n' ∧ mark ≠ '\r')
      (reads : ∀ tail, escape? (mark :: code ++ tail) = some (c, tail)) : Escaped c ('\\' :: mark :: code)
  | plain (slash : c ≠ '\\') (code : needsEscape c = false) : Escaped c [c]

theorem escaped_spec (c : Char) : Escaped c (escaped c) := by
  unfold escaped
  split
  case h_6 =>
    rename_i slash
    split
    · rename_i code
      exact .escape 'u' (upperHex c.toNat) (by decide) (escape?_code code)
    · rename_i code
      exact .plain slash (Bool.not_eq_true _ ▸ code)
  all_goals exact .escape _ [] (by decide) fun _ => rfl

/-! ## Basic strings -/

theorem basic?_plain {c : Char} (done rest : List Char) (mark : c ≠ '"') (slash : c ≠ '\\')
    (control : isControl c = false) : basic? done (c :: rest) = basic? (c :: done) rest := by
  rw [basic?.eq_def]
  split <;> simp_all

theorem basic?_escape {c : Char} {code rest : List Char} (done : List Char)
    (reads : escape? code = some (c, rest)) : basic? done ('\\' :: code) = basic? (c :: done) rest := by
  rw [basic?.eq_def]
  simp only
  split
  · rename_i found
    rw [reads] at found
    cases found
    rfl
  · rename_i missing
    rw [reads] at missing
    cases missing

theorem basic?_escapedLine (done s rest : List Char) :
    basic? done (escapedLine s ++ '"' :: rest) = some (done.reverse ++ s, rest) := by
  induction s generalizing done with
  | nil =>
    rw [escapedLine, List.flatMap_nil, List.nil_append, basic?, List.append_nil]
  | cons c s ih =>
    have tail := ih (c :: done)
    rw [List.reverse_cons, List.append_assoc, List.singleton_append] at tail
    rw [← tail, escapedLine, List.flatMap_cons, List.append_assoc]
    change basic? done (_ ++ (escapedLine s ++ _)) = _
    split
    · rename_i quote
      subst quote
      exact basic?_escape done rfl
    · rename_i quote
      split
      · rename_i line
        subst line
        exact basic?_escape done rfl
      · rename_i line
        have spec := escaped_spec c
        generalize escaped c = written at spec
        cases spec with
        | escape mark code _ reads => exact basic?_escape done (reads _)
        | plain slash code => exact basic?_plain done _ quote slash (isControl_of_needsEscape code line)

theorem literal?_text (done : List Char) {s : List Char} (rest : List Char) (marks : '\'' ∉ s)
    (controls : ∀ c ∈ s, isControl c = false) :
    literal? done (s ++ '\'' :: rest) = some (done.reverse ++ s, rest) := by
  induction s generalizing done with
  | nil => rw [List.nil_append, literal?, List.append_nil]
  | cons c s ih =>
    have mark : c ≠ '\'' := fun same => marks (same ▸ List.mem_cons_self)
    have control := controls c List.mem_cons_self
    have step : literal? done (c :: (s ++ '\'' :: rest)) = literal? (c :: done) (s ++ '\'' :: rest) := by
      rw [literal?.eq_def]
      split <;> simp_all
    have tail := ih (c :: done) (fun member => marks (List.mem_cons_of_mem _ member))
      fun d member => controls d (List.mem_cons_of_mem _ member)
    rw [List.cons_append, step, tail, List.reverse_cons, List.append_assoc, List.singleton_append]

/-! ## Strings on several lines -/

/-- The quotes that the reader has not passed yet, in a text of up to two of them. -/
theorem pending_cases {q : Nat} (few : q ≤ 2) : q = 0 ∨ q = 1 ∨ q = 2 := by omega

theorem multiBasic?_plain {c : Char} (done rest : List Char) (mark : c ≠ '"') (slash : c ≠ '\\')
    (plain : needsEscape c = false) :
    multiBasic? false done (c :: rest) = multiBasic? false (c :: done) rest := by
  by_cases line : c = '\n'
  · subst line
    rw [multiBasic?]
    rfl
  · have control := isControl_of_needsEscape plain line
    have carriage : c ≠ '\r' := by
      rintro rfl
      exact absurd control (by decide)
    rw [multiBasic?.eq_def]
    split <;> simp_all

theorem multiBasic?_escape {mark : Char} {code rest : List Char} {c : Char} (done : List Char)
    (visible : mark ≠ ' ' ∧ mark ≠ '\t' ∧ mark ≠ '\n' ∧ mark ≠ '\r')
    (reads : escape? (mark :: code) = some (c, rest)) :
    multiBasic? false done ('\\' :: mark :: code) = multiBasic? false (c :: done) rest := by
  have together : startsBreak (mark :: code) = false := by
    obtain ⟨space, tab, line, carriage⟩ := visible
    have front : (mark :: code).dropWhile (fun c => c == ' ' || c == '\t') = mark :: code := by
      simp [space, tab]
    rw [startsBreak, front]
    split <;> simp_all
  rw [multiBasic?.eq_def]
  simp only [together, Bool.false_eq_true, ↓reduceIte]
  split
  · rename_i found
    rw [reads] at found
    cases found
    rfl
  · rename_i missing
    rw [reads] at missing
    cases missing

theorem multiBasic?_quote {done rest : List Char} (alone : ∀ tail, rest ≠ '"' :: '"' :: tail) :
    multiBasic? false done ('"' :: rest) = multiBasic? false ('"' :: done) rest := by
  rw [multiBasic?.eq_def]
  split
  case h_7 =>
    rename_i heq
    cases heq
    rfl
  all_goals simp_all

/-- Up to two quotes with something else behind them belong to the text. -/
theorem multiBasic?_pending {q : Nat} (few : q ≤ 2) (done : List Char) {c : Char} (other : c ≠ '"')
    (rest : List Char) :
    multiBasic? false done (List.replicate q '"' ++ c :: rest) =
      multiBasic? false (List.replicate q '"' ++ done) (c :: rest) := by
  rcases pending_cases few with rfl | rfl | rfl
  · rfl
  · exact multiBasic?_quote (by simp [other])
  · exact (multiBasic?_quote (by simp [other])).trans (multiBasic?_quote (by simp [other]))

/-- The closing quotes, with up to two quotes of the text in front of them. -/
theorem multiBasic?_closing {q : Nat} (few : q ≤ 2) (done : List Char) {rest : List Char}
    (behind : rest.head? ≠ some '"') :
    multiBasic? false done (List.replicate q '"' ++ '"' :: '"' :: '"' :: rest) =
      some (done.reverse ++ List.replicate q '"', rest) := by
  have other (tail : List Char) : rest ≠ '"' :: tail := by
    rintro rfl
    exact behind rfl
  rcases pending_cases few with rfl | rfl | rfl
  · change multiBasic? false done ('"' :: '"' :: '"' :: rest) = _
    rw [multiBasic?]
    · simp
    · exact fun tail same => other _ same
    · exact other
  · change multiBasic? false done ('"' :: '"' :: '"' :: '"' :: rest) = _
    rw [multiBasic?]
    · simp
    · exact other
  · change multiBasic? false done ('"' :: '"' :: '"' :: '"' :: '"' :: rest) = _
    rw [multiBasic?]
    simp

theorem multiBasic?_escaped {q : Nat} (few : q ≤ 2) (done : List Char) {c : Char} (other : c ≠ '"')
    (rest : List Char) :
    multiBasic? false done (List.replicate q '"' ++ (escaped c ++ rest)) =
      multiBasic? false (c :: (List.replicate q '"' ++ done)) rest := by
  have spec := escaped_spec c
  generalize escaped c = written at spec
  cases spec with
  | escape mark code visible reads =>
    exact (multiBasic?_pending few done (by decide) _).trans (multiBasic?_escape _ visible (reads _))
  | plain slash code =>
    exact (multiBasic?_pending few done other _).trans (multiBasic?_plain _ _ other slash code)

theorem multiBasic?_escapedLines {q : Nat} (few : q ≤ 2) (done s : List Char) {rest : List Char}
    (behind : rest.head? ≠ some '"') :
    multiBasic? false done
        (List.replicate q '"' ++ (escapedLines q s ++ '"' :: '"' :: '"' :: rest)) =
      some (done.reverse ++ (List.replicate q '"' ++ s), rest) := by
  induction s generalizing q done with
  | nil =>
    rw [escapedLines, List.nil_append, List.append_nil]
    exact multiBasic?_closing few done behind
  | cons c s ih =>
    by_cases quote : c = '"'
    · subst quote
      rw [escapedLines]
      split
      · rename_i third
        subst third
        have tail := ih (Nat.zero_le 2) ('"' :: '"' :: '"' :: done)
        have escape : multiBasic? false ('"' :: '"' :: done)
            ('\\' :: '"' :: (escapedLines 0 s ++ '"' :: '"' :: '"' :: rest)) =
          multiBasic? false ('"' :: '"' :: '"' :: done)
            (escapedLines 0 s ++ '"' :: '"' :: '"' :: rest) :=
          multiBasic?_escape _ (by decide) rfl
        rw [List.cons_append, List.cons_append,
          multiBasic?_pending few done (by decide : '\\' ≠ '"')]
        refine escape.trans (tail.trans ?_)
        simp
      · rename_i more
        have tail := ih (q := q + 1) (by omega) done
        have shift (l : List Char) : List.replicate q '"' ++ '"' :: l = List.replicate (q + 1) '"' ++ l := by
          rw [List.replicate_succ', List.append_assoc, List.singleton_append]
        rw [List.cons_append, shift, tail, shift]
    · have tail := ih (Nat.zero_le 2) (c :: (List.replicate q '"' ++ done))
      rw [escapedLines, List.append_assoc, multiBasic?_escaped few done quote]
      · refine tail.trans ?_
        simp
      · exact quote

/-! ## Literal strings on several lines -/

theorem multiLiteral?_plain {c : Char} (done rest : List Char) (mark : c ≠ '\'')
    (plain : needsEscape c = false) :
    multiLiteral? done (c :: rest) = multiLiteral? (c :: done) rest := by
  by_cases line : c = '\n'
  · subst line
    rw [multiLiteral?]
  · have control := isControl_of_needsEscape plain line
    have carriage : c ≠ '\r' := by
      rintro rfl
      exact absurd control (by decide)
    rw [multiLiteral?.eq_def]
    split <;> simp_all

theorem multiLiteral?_quote {done rest : List Char} (alone : ∀ tail, rest ≠ '\'' :: '\'' :: tail) :
    multiLiteral? done ('\'' :: rest) = multiLiteral? ('\'' :: done) rest := by
  rw [multiLiteral?.eq_def]
  split
  case h_6 =>
    rename_i heq
    cases heq
    rfl
  all_goals simp_all

theorem multiLiteral?_pending {q : Nat} (few : q ≤ 2) (done : List Char) {c : Char} (other : c ≠ '\'')
    (rest : List Char) :
    multiLiteral? done (List.replicate q '\'' ++ c :: rest) =
      multiLiteral? (List.replicate q '\'' ++ done) (c :: rest) := by
  rcases pending_cases few with rfl | rfl | rfl
  · rfl
  · exact multiLiteral?_quote (by simp [other])
  · exact (multiLiteral?_quote (by simp [other])).trans (multiLiteral?_quote (by simp [other]))

theorem multiLiteral?_closing {q : Nat} (few : q ≤ 2) (done : List Char) {rest : List Char}
    (behind : rest.head? ≠ some '\'') :
    multiLiteral? done (List.replicate q '\'' ++ '\'' :: '\'' :: '\'' :: rest) =
      some (done.reverse ++ List.replicate q '\'', rest) := by
  have other (tail : List Char) : rest ≠ '\'' :: tail := by
    rintro rfl
    exact behind rfl
  rcases pending_cases few with rfl | rfl | rfl
  · change multiLiteral? done ('\'' :: '\'' :: '\'' :: rest) = _
    rw [multiLiteral?]
    · simp
    · exact fun tail same => other _ same
    · exact other
  · change multiLiteral? done ('\'' :: '\'' :: '\'' :: '\'' :: rest) = _
    rw [multiLiteral?]
    · simp
    · exact other
  · change multiLiteral? done ('\'' :: '\'' :: '\'' :: '\'' :: '\'' :: rest) = _
    rw [multiLiteral?]
    simp

theorem le_longestRun_go (x : Char) (best run : Nat) (s : List Char) :
    max best run ≤ longestRun.go x best run s := by
  induction s generalizing best run with
  | nil => exact Nat.le_refl _
  | cons c s ih =>
    rw [longestRun.go]
    split
    · have later := ih best (run + 1)
      omega
    · have later := ih (max best run) 0
      omega

theorem longestRun_go_pos {x : Char} {s : List Char} (h : x ∈ s) (best run : Nat) :
    0 < longestRun.go x best run s := by
  induction s generalizing best run with
  | nil => cases h
  | cons c s ih =>
    rw [longestRun.go]
    split
    · have later := le_longestRun_go x best (run + 1) s
      omega
    · rename_i other
      exact ih (List.mem_of_ne_of_mem (Ne.symm other) h) _ _

/-- The run of quotes at the front is the one that the reader has still to pass. -/
theorem multiLiteral?_text {q best : Nat} (done : List Char) {s rest : List Char}
    (few : longestRun.go '\'' best q s ≤ 2) (plain : ∀ c ∈ s, needsEscape c = false)
    (behind : rest.head? ≠ some '\'') :
    multiLiteral? done (List.replicate q '\'' ++ (s ++ '\'' :: '\'' :: '\'' :: rest)) =
      some (done.reverse ++ (List.replicate q '\'' ++ s), rest) := by
  have pending : q ≤ 2 := by
    have bound := le_longestRun_go '\'' best q s
    omega
  induction s generalizing q best done with
  | nil =>
    rw [List.nil_append, List.append_nil]
    exact multiLiteral?_closing pending done behind
  | cons c s ih =>
    have below (d : Char) (member : d ∈ s) := plain d (List.mem_cons_of_mem _ member)
    rw [longestRun.go] at few
    split at few
    · rename_i quote
      subst quote
      have bound := le_longestRun_go '\'' best (q + 1) s
      have tail := ih done few below (by omega)
      have shift (l : List Char) : List.replicate q '\'' ++ '\'' :: l = List.replicate (q + 1) '\'' ++ l := by
        rw [List.replicate_succ', List.append_assoc, List.singleton_append]
      rw [List.cons_append, shift, tail, shift]
    · rename_i quote
      have tail := ih (c :: (List.replicate q '\'' ++ done)) few below (Nat.zero_le 2)
      rw [List.cons_append, multiLiteral?_pending pending done quote,
        multiLiteral?_plain _ _ quote (plain c List.mem_cons_self)]
      refine tail.trans ?_
      simp

/-! ## The form of a text -/

theorem dropBreak_of_head {s : List Char} (line : s.head? ≠ some '\n') (carriage : s.head? ≠ some '\r') :
    dropBreak s = s := by
  unfold dropBreak
  split
  · exact absurd rfl carriage
  · exact absurd rfl line
  · rfl

/-- What is behind the opening quotes of a form with three of them. -/
theorem dropBreak_opening {lines : Bool} {body : List Char} (line : lines = false → body.head? ≠ some '\n')
    (carriage : lines = false → body.head? ≠ some '\r') :
    dropBreak ((if lines then "\n" else "").toList ++ body) = body := by
  cases lines with
  | true => rfl
  | false => exact dropBreak_of_head (line rfl) (carriage rfl)

theorem string?_of_basic {s : List Char} (alone : ∀ tail, s ≠ '"' :: '"' :: tail) :
    string? ('"' :: s) = basic? [] s := by
  rw [string?.eq_def]
  split <;> simp_all

theorem string?_of_literal {s : List Char} (alone : ∀ tail, s ≠ '\'' :: '\'' :: tail) :
    string? ('\'' :: s) = literal? [] s := by
  rw [string?.eq_def]
  split <;> simp_all

theorem head?_escaped {c : Char} (rest : List Char) :
    (escaped c ++ rest).head? = some '\\' ∨
      (escaped c ++ rest).head? = some c ∧ needsEscape c = false := by
  have spec := escaped_spec c
  generalize escaped c = written at spec
  cases spec with
  | escape => exact .inl rfl
  | plain _ code => exact .inr ⟨rfl, code⟩

theorem escapedLine_ne {s rest : List Char} (behind : rest.head? ≠ some '"') (tail : List Char) :
    escapedLine s ++ '"' :: rest ≠ '"' :: '"' :: tail := by
  intro same
  cases s with
  | nil =>
    cases same
    exact behind rfl
  | cons c s =>
    have head := congrArg List.head? same
    rw [escapedLine, List.flatMap_cons, List.append_assoc] at head
    split at head
    · cases head
    · rename_i quote
      split at head
      · cases head
      · rcases head?_escaped (c := c) (escapedLine s ++ '"' :: rest) with slash | ⟨plain, -⟩
        · cases slash.symm.trans head
        · cases plain.symm.trans head
          exact quote rfl

theorem head?_escapedLines {s : List Char} (lines : '\n' ∉ s) (rest : List Char) :
    (escapedLines 0 s ++ '"' :: rest).head? ≠ some '\n' ∧
      (escapedLines 0 s ++ '"' :: rest).head? ≠ some '\r' := by
  cases s with
  | nil => exact ⟨by simp [escapedLines], by simp [escapedLines]⟩
  | cons c s =>
    by_cases quote : c = '"'
    · subst quote
      exact ⟨by simp [escapedLines], by simp [escapedLines]⟩
    · rw [escapedLines, List.append_assoc]
      · rcases head?_escaped (c := c) (escapedLines 0 s ++ '"' :: rest) with slash | ⟨plain, code⟩
        · rw [slash]
          exact ⟨by decide, by decide⟩
        · rw [plain]
          refine ⟨?_, ?_⟩
          · rintro ⟨⟩
            exact lines List.mem_cons_self
          · rintro ⟨⟩
            exact absurd code (by decide)
      · exact quote

section

variable (text : String) {rest : List Char}

theorem string?_basic (behind : rest.head? ≠ some '"') :
    string? (("\"" ++ String.ofList (escapedLine text.toList) ++ "\"").toList ++ rest) =
      some (text.toList, rest) := by
  have written : ("\"" ++ String.ofList (escapedLine text.toList) ++ "\"").toList ++ rest =
      '"' :: (escapedLine text.toList ++ '"' :: rest) := by simp
  rw [written, string?_of_basic (escapedLine_ne behind)]
  exact basic?_escapedLine [] text.toList rest

theorem string?_literal (behind : rest.head? ≠ some '\'') (marks : '\'' ∉ text.toList)
    (controls : ∀ c ∈ text.toList, isControl c = false) :
    string? (("'" ++ text ++ "'").toList ++ rest) = some (text.toList, rest) := by
  have written : ("'" ++ text ++ "'").toList ++ rest = '\'' :: (text.toList ++ '\'' :: rest) := by simp
  have alone (tail : List Char) : text.toList ++ '\'' :: rest ≠ '\'' :: '\'' :: tail := by
    intro same
    generalize text.toList = s at marks same
    cases s with
    | nil =>
      cases same
      exact behind rfl
    | cons c s =>
      obtain ⟨rfl, -⟩ := List.cons.inj same
      exact marks List.mem_cons_self
  rw [written, string?_of_literal alone]
  exact literal?_text [] rest marks controls

theorem string?_multiBasic (behind : rest.head? ≠ some '"') :
    string? (("\"\"\"" ++ (if text.toList.contains '\n' then "\n" else "") ++
      String.ofList (escapedLines 0 text.toList) ++ "\"\"\"").toList ++ rest) =
      some (text.toList, rest) := by
  have written : ("\"\"\"" ++ (if text.toList.contains '\n' then "\n" else "") ++
      String.ofList (escapedLines 0 text.toList) ++ "\"\"\"").toList ++ rest =
      '"' :: '"' :: '"' :: ((if text.toList.contains '\n' then "\n" else "").toList ++
        (escapedLines 0 text.toList ++ '"' :: '"' :: '"' :: rest)) := by
    simp only [String.toList_append, String.toList_ofList, List.append_assoc]
    rfl
  have head (lines : text.toList.contains '\n' = false) :=
    head?_escapedLines (by simpa using lines) ('"' :: '"' :: rest)
  rw [written, string?, dropBreak_opening (fun lines => (head lines).1) fun lines => (head lines).2]
  exact multiBasic?_escapedLines (Nat.zero_le 2) [] text.toList behind

theorem string?_multiLiteral (behind : rest.head? ≠ some '\'') (few : longestRun '\'' text.toList ≤ 2)
    (plain : ∀ c ∈ text.toList, needsEscape c = false) :
    string? (("'''" ++ (if text.toList.contains '\n' then "\n" else "") ++ text ++ "'''").toList ++ rest) =
      some (text.toList, rest) := by
  have written : ("'''" ++ (if text.toList.contains '\n' then "\n" else "") ++ text ++ "'''").toList ++ rest =
      '\'' :: '\'' :: '\'' :: ((if text.toList.contains '\n' then "\n" else "").toList ++
        (text.toList ++ '\'' :: '\'' :: '\'' :: rest)) := by
    simp only [String.toList_append, List.append_assoc]
    rfl
  have line (lines : text.toList.contains '\n' = false) :
      (text.toList ++ '\'' :: '\'' :: '\'' :: rest).head? ≠ some '\n' := by
    have absent : '\n' ∉ text.toList := by simpa using lines
    generalize text.toList = s at absent
    cases s with
    | nil => simp
    | cons c s =>
      rintro ⟨⟩
      exact absent List.mem_cons_self
  have carriage : (text.toList ++ '\'' :: '\'' :: '\'' :: rest).head? ≠ some '\r' := by
    generalize text.toList = s at plain
    cases s with
    | nil => simp
    | cons c s =>
      rintro ⟨⟩
      exact absurd (plain '\r' List.mem_cons_self) (by decide)
  rw [written, string?, dropBreak_opening line fun _ => carriage]
  exact multiLiteral?_text (q := 0) [] few plain behind

omit rest in
theorem head?_quote : (quote text).toList.head? = some '"' ∨ (quote text).toList.head? = some '\'' := by
  unfold quote
  dsimp only
  split
  · simp
  · split
    · simp
    · split
      · simp
      · split
        · simp
        · split <;> simp

/-- A text is read back from its quotes, unless another quote stands right behind them. -/
theorem string?_quote (double : rest.head? ≠ some '"') (single : rest.head? ≠ some '\'') :
    string? ((quote text).toList ++ rest) = some (text.toList, rest) := by
  have unescaped (codes : text.toList.any needsEscape = false) (c : Char) (member : c ∈ text.toList) :
      needsEscape c = false := by
    simpa using List.any_eq_false.mp codes c member
  have basic := string?_basic text double
  have literal := string?_literal text single
  have multiBasic := string?_multiBasic text double
  have multiLiteral := string?_multiLiteral text single
  unfold quote
  dsimp only
  generalize "\"" ++ String.ofList (escapedLine text.toList) ++ "\"" = basicForm at basic ⊢
  generalize "'" ++ text ++ "'" = literalForm at literal ⊢
  generalize "\"\"\"" ++ _ ++ _ ++ "\"\"\"" = multiBasicForm at multiBasic ⊢
  generalize "'''" ++ _ ++ text ++ "'''" = multiLiteralForm at multiLiteral ⊢
  split
  · exact basic
  · split
    · rename_i plain
      simp only [Bool.and_eq_true, Bool.not_eq_true', beq_iff_eq] at plain
      obtain ⟨⟨codes, lines⟩, run⟩ := plain
      refine literal (fun mark => ?_) fun c member => ?_
      · exact absurd run (Nat.ne_of_gt (longestRun_go_pos mark 0 0))
      · refine isControl_of_needsEscape (unescaped codes c member) ?_
        rintro rfl
        simp [member] at lines
    · split
      · exact multiBasic
      · split
        · rename_i plain
          simp only [Bool.and_eq_true, Bool.not_eq_true', decide_eq_true_eq] at plain
          exact multiLiteral plain.2 (unescaped plain.1)
        · split
          · exact multiBasic
          · exact basic

end

end LockServo.Toml

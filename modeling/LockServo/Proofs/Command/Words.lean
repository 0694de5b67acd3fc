import LockServo.Command.Arguments

/-!
# Command lines

The words that stand for a run, and that they are read as it. A path may be any text but the empty one:
one that looks like an option is told apart by the equals sign or the mark before it.
-/

namespace LockServo

open Arguments

theorem Arguments.foldlM_cons_of_ok {r next : Reading} {word : String} (h : r.step word = .ok next)
    (rest : List String) : (word :: rest).foldlM Reading.step r = rest.foldlM Reading.step next := by
  rw [List.foldlM_cons, h]
  rfl

namespace Options

def words (o : Options) : List String :=
  ["--config=" ++ o.config] ++ (if o.simulate then ["--simulate"] else []) ++
    (if o.verbose then ["--verbose"] else []) ++ (if o.json then ["--json"] else [])

def reading (o : Options) : Reading := ⟨some o.config, o.simulate, o.verbose, o.json, .option⟩

theorem step_config {path : String} (named : path ≠ "") :
    Reading.step {} ("--config=" ++ path) = .ok { config := some path } := by
  have letters : ("--config=" ++ path).toList =
      '-' :: '-' :: 'c' :: 'o' :: 'n' :: 'f' :: 'i' :: 'g' :: '=' :: path.toList :=
    String.toList_append
  have whole : ¬ ((String.ofList path.toList).isEmpty || false) = true := by
    simpa using named
  rw [Reading.step, letters]
  change Reading.setConfig {} (String.ofList path.toList) = _
  rw [Reading.setConfig]
  exact (if_neg whole).trans (by rw [String.ofList_toList])

theorem foldlM_words {o : Options} (named : o.config ≠ "") :
    o.words.foldlM Reading.step {} = .ok o.reading := by
  obtain ⟨config, simulate, verbose, json⟩ := o
  rw [words, List.append_assoc, List.append_assoc, List.singleton_append,
    foldlM_cons_of_ok (step_config named)]
  cases simulate <;> cases verbose <;> cases json <;> rfl

end Options

namespace Command

def words : Command → List String
  | .status => ["status"]
  | .save path => ["save", "--", path]
  | .load path => ["load", "--", path]
  | .pins => ["pins"]

/-- Whether the path of a command, if it has one, can be given at all. -/
def Named : Command → Prop
  | .save path | .load path => path ≠ ""
  | .status | .pins => True

theorem foldlM_path (o : Options) (verb : Verb) (takes : verb.takesPath = true) {path : String}
    (named : path ≠ "") :
    ([verb.name, "--", path] : List String).foldlM Reading.step o.reading =
      .ok { o.reading with place := .operand verb (some path) true } := by
  have verbed : o.reading.step verb.name = .ok { o.reading with place := .operand verb none false } := by
    cases verb <;> rfl
  have marked : Reading.step { o.reading with place := .operand verb none false } "--" =
      .ok { o.reading with place := .operand verb none true } := rfl
  have usable : (verb.takesPath && (none : Option String).isNone && !path.isEmpty) = true := by
    simpa [takes] using named
  have placed : Reading.step { o.reading with place := .operand verb none true } path =
      .ok { o.reading with place := .operand verb (some path) true } := if_pos usable
  rw [foldlM_cons_of_ok verbed, foldlM_cons_of_ok marked, foldlM_cons_of_ok placed]
  rfl

theorem foldlM_words (o : Options) {command : Command} (named : command.Named) :
    ∃ r : Reading, command.words.foldlM Reading.step o.reading = .ok r ∧ r.request = .run o command := by
  cases command with
  | status | pins => exact ⟨_, rfl, rfl⟩
  | save path => exact ⟨_, foldlM_path o .save rfl named, rfl⟩
  | load path => exact ⟨_, foldlM_path o .load rfl named, rfl⟩

end Command

/-- A run is asked for by its words; with no command, the status is. -/
theorem Request.ofArguments_words {o : Options} (named : o.config ≠ "") {command? : Option Command}
    (named' : ∀ command ∈ command?, command.Named) :
    Request.ofArguments (o.words ++ (command?.map Command.words).getD []) =
      .run o (command?.getD .status) := by
  have read : (o.words ++ (command?.map Command.words).getD []).foldlM Reading.step {} =
      ((command?.map Command.words).getD []).foldlM Reading.step o.reading := by
    rw [List.foldlM_append, Options.foldlM_words named]
    rfl
  rw [ofArguments, read]
  cases command? with
  | none => rfl
  | some command =>
    obtain ⟨r, followed, request⟩ := Command.foldlM_words o (named' command rfl)
    simp only [Option.map_some, Option.getD_some, followed]
    exact request

end LockServo

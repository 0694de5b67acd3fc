import LockServo.Proofs.Command.Stages
import LockServo.Proofs.Command.Words

/-!
# What a run comes to

A run succeeds when each of its stages does. Its device is left as the parameter set leaves it that is
applied there, if any is.
-/

namespace LockServo

open Register

namespace Outcome

def memoryAt (outcome : Outcome) (s : Surroundings) (path : String) : Except FileCause Memory :=
  match outcome.memory with
  | some (device, m) => if path = device then .ok m else s.memory path
  | none => s.memory path

end Outcome

namespace Options

variable {o : Options} {s : Surroundings}

/-- The stages before the command succeed and leave it this instrument. -/
structure BringsUp (o : Options) (s : Surroundings) (c : Settings) (i : Instrument Binary64) : Prop where
  settings : o.inEffect? (s.read o.config) = some c
  fit : c.Fit
  instrument : c.instrument? (s.memory c.device) = some i

theorem run_value (o : Options) (command : Command) (s : Surroundings) :
    (o.run command s).value = (o.attempt command s).value := by
  unfold run
  simp only [Logged.bind_value]
  split <;> rfl

def conclude (o : Options) (c : Settings) (result : Except Failure Product × Instrument Binary64) : Outcome :=
  let memory := if c.simulate then none else some (c.device, result.2.memory)
  match result.1 with
  | .ok product => { Outcome.ofProduct o.json product with memory }
  | .error failure => { Outcome.failed failure with memory }

theorem attempt_value_of_bringsUp {c : Settings} {i : Instrument Binary64} (h : o.BringsUp s c i)
    (command : Command) : (o.attempt command s).value = o.conclude c ((command.work s).run.run i).value := by
  have read : (o.settings (s.read o.config)).value = .ok c := settings_value_eq_ok_iff.mpr ⟨h.settings, h.fit⟩
  have started : (c.start (s.memory c.device)).value = .ok i := by
    have value := (c.start_value (s.memory c.device)).trans h.instrument
    cases outcome : (c.start (s.memory c.device)).value with
    | ok j =>
      rw [outcome] at value
      exact congrArg Except.ok (Option.some.inj value)
    | error fault =>
      rw [outcome] at value
      cases value
  unfold attempt
  simp only [Logged.bind_value, read, started]
  generalize ((command.work s).run.run i).value = result
  obtain ⟨_ | _, _⟩ := result <;> rfl

theorem attempt_value_of_not_bringsUp (h : ∀ c i, ¬ o.BringsUp s c i) (command : Command) :
    ∃ failure : Failure, (o.attempt command s).value = .failed failure := by
  unfold attempt
  simp only [Logged.bind_value]
  cases read : (o.settings (s.read o.config)).value with
  | error fault => exact ⟨_, rfl⟩
  | ok c =>
    obtain ⟨settings, fit⟩ := settings_value_eq_ok_iff.mp read
    dsimp only
    rw [Logged.bind_value]
    have value := c.start_value (s.memory c.device)
    cases started : (c.start (s.memory c.device)).value with
    | error fault => exact ⟨_, rfl⟩
    | ok i =>
      rw [started] at value
      exact absurd ⟨settings, fit, value.symm⟩ (h c i)

theorem BringsUp.fullSize {c : Settings} {i : Instrument Binary64} (h : o.BringsUp s c i) : i.FullSize := by
  have up := h.instrument
  unfold Settings.instrument? at up
  split at up
  · obtain rfl := Option.some.inj up
    exact Instrument.blank_fullSize _
  · obtain ⟨m, -, rfl⟩ := Option.map_eq_some_iff.mp up
    exact (Instrument.onDevice_maps _ m _).sound.fullSize

/-- The run gets as far as applying a set to the registers behind its device. -/
structure Applies (o : Options) (command : Command) (s : Surroundings) (c : Settings) (m : Memory)
    (set : ParameterSet Binary64) : Prop where
  settings : o.inEffect? (s.read o.config) = some c
  fit : c.Fit
  mapped : c.simulate = false
  device : s.memory c.device = .ok m
  parameters : command.parameters? s = some set

variable {command : Command} {c : Settings} {m : Memory} {set : ParameterSet Binary64}
  {i : Instrument Binary64}

theorem bringsUp_iff : (∃ i, o.BringsUp s c i) ↔
    o.inEffect? (s.read o.config) = some c ∧ c.Fit ∧
      (c.simulate = true ∨ ∃ m, s.memory c.device = .ok m) := by
  have up : (∃ i, c.instrument? (s.memory c.device) = some i) ↔
      c.simulate = true ∨ ∃ m, s.memory c.device = .ok m := by
    unfold Settings.instrument?
    cases c.simulate with
    | true => exact iff_of_true ⟨_, rfl⟩ (.inl rfl)
    | false => cases s.memory c.device <;> simp [Except.toOption]
  constructor
  · rintro ⟨i, settings, fit, instrument⟩
    exact ⟨settings, fit, up.mp ⟨i, instrument⟩⟩
  · rintro ⟨settings, fit, source⟩
    obtain ⟨i, instrument⟩ := up.mpr source
    exact ⟨i, settings, fit, instrument⟩

theorem Applies.bringsUp (h : o.Applies command s c m set) :
    o.BringsUp s c (.onDevice Instrument.pageSize m c.calibration) where
  settings := h.settings
  fit := h.fit
  instrument := by
    rw [Settings.instrument?, h.mapped, h.device]
    rfl

theorem exitCode_attempt (o : Options) (command : Command) (s : Surroundings) :
    ((o.attempt command s).value.exitCode = 0 ∧ ∃ c, (∃ i, o.BringsUp s c i) ∧ command.Succeeds s) ∨
      ((o.attempt command s).value.exitCode = 1 ∧ ¬ ∃ c, (∃ i, o.BringsUp s c i) ∧ command.Succeeds s) := by
  by_cases up : ∃ c i, o.BringsUp s c i
  · obtain ⟨c, i, up⟩ := up
    rw [attempt_value_of_bringsUp up command]
    rcases command.work_value s up.fullSize with ⟨⟨product, result⟩, succeeds⟩ | ⟨⟨failure, result⟩, fails⟩
    · rw [result]
      refine .inl ⟨?_, c, ⟨i, up⟩, succeeds⟩
      cases product <;> rfl
    · rw [result]
      exact .inr ⟨rfl, fun ⟨_, _, succeeds⟩ => fails succeeds⟩
  · obtain ⟨failure, failed⟩ := attempt_value_of_not_bringsUp (fun c i h => up ⟨c, i, h⟩) command
    rw [failed]
    exact .inr ⟨rfl, fun ⟨c, ⟨i, h⟩, _⟩ => up ⟨c, i, h⟩⟩

theorem memory_attempt (h : o.BringsUp s c i) (command : Command) :
    (o.attempt command s).value.memory =
      if c.simulate then none else some (c.device, (command.after s i).memory) := by
  rw [attempt_value_of_bringsUp h command]
  rcases command.work_value s h.fullSize with ⟨⟨product, result⟩, -⟩ | ⟨⟨failure, result⟩, -⟩ <;>
    rw [result] <;> rfl

theorem memoryAt_of_applies (h : o.Applies command s c m set) (path : String) :
    (o.attempt command s).value.memoryAt s path =
      if path = c.device then
        .ok (set.apply.perform (.onDevice Instrument.pageSize m c.calibration)).value.2.memory
      else s.memory path := by
  have left := memory_attempt h.bringsUp command
  rw [h.mapped, if_neg Bool.false_ne_true, Command.after, h.parameters] at left
  rw [Outcome.memoryAt, left]

/-- A run that applies nothing leaves every device as it was. -/
theorem memoryAt_of_not_applies (h : ∀ c m set, ¬ o.Applies command s c m set) (path : String) :
    (o.attempt command s).value.memoryAt s path = s.memory path := by
  by_cases up : ∃ c i, o.BringsUp s c i
  · obtain ⟨c, i, up⟩ := up
    have left := memory_attempt up command
    rw [Outcome.memoryAt, left]
    cases mapped : c.simulate with
    | true => rfl
    | false =>
      have instrument := up.instrument
      rw [Settings.instrument?, mapped, if_neg Bool.false_ne_true] at instrument
      cases device : s.memory c.device with
      | error cause =>
        rw [device] at instrument
        cases instrument
      | ok m =>
        rw [device] at instrument
        obtain rfl := Option.some.inj instrument
        rw [if_neg Bool.false_ne_true, Command.after]
        cases parameters : command.parameters? s with
        | some set => exact absurd ⟨up.settings, up.fit, mapped, device, parameters⟩ (h c m set)
        | none =>
          dsimp only
          split
          · rename_i same
            rw [same, device]
            rfl
          · rfl
  · obtain ⟨failure, failed⟩ := attempt_value_of_not_bringsUp (fun c i h => up ⟨c, i, h⟩) command
    rw [failed]
    rfl

end Options

/-- The exit code is zero when every stage succeeds and one otherwise. A device keeps its bytes unless the
run gets as far as applying a set to it, and then only its blocks change: they are left as the setters
before the first refused one leave them. -/
theorem run_outcome {o : Options} (named : o.config ≠ "") {command? : Option Command}
    (named' : ∀ command ∈ command?, command.Named) (s : Surroundings) :
    let command := command?.getD .status
    let words := o.words ++ (command?.map Command.words).getD []
    let outcome := ((Request.ofArguments words).perform s).value
    (outcome.exitCode = 0 ↔ ∃ c : Settings, o.inEffect? (s.read o.config) = some c ∧ c.Fit ∧
      (c.simulate = true ∨ ∃ m, s.memory c.device = .ok m) ∧ command.Succeeds s) ∧
    (outcome.exitCode ≠ 0 → outcome.exitCode = 1) ∧
    (∀ (c : Settings) (m : Memory) (set : ParameterSet Binary64), o.Applies command s c m set →
      let device : Instrument Binary64 := .onDevice Instrument.pageSize m c.calibration
      let after := (set.apply.perform device).value.2
      after.Maps Instrument.pageSize m ∧ device.StoredBy after (Setter.writer? set.accepted) ∧
      ∀ path : String,
        outcome.memoryAt s path = if path = c.device then .ok after.memory else s.memory path) ∧
    ((∀ c m set, ¬ o.Applies command s c m set) →
      ∀ path : String, outcome.memoryAt s path = s.memory path) := by
  intro command words outcome
  have performed : outcome = (o.attempt command s).value := by
    change ((Request.ofArguments words).perform s).value = _
    rw [Request.ofArguments_words named named']
    exact o.run_value command s
  rw [performed]
  have stages : (∃ c, (∃ i, o.BringsUp s c i) ∧ command.Succeeds s) ↔
      ∃ c : Settings, o.inEffect? (s.read o.config) = some c ∧ c.Fit ∧
        (c.simulate = true ∨ ∃ m, s.memory c.device = .ok m) ∧ command.Succeeds s := by
    simp only [Options.bringsUp_iff, and_assoc]
  rw [← stages]
  refine ⟨?_, ?_, fun c m set applies => ?_, Options.memoryAt_of_not_applies⟩
  · rcases o.exitCode_attempt command s with ⟨code, good⟩ | ⟨code, bad⟩
    · exact iff_of_true code good
    · exact iff_of_false (code ▸ Nat.one_ne_zero) bad
  · intro failed
    rcases o.exitCode_attempt command s with ⟨code, -⟩ | ⟨code, -⟩
    · exact absurd code failed
    · exact code
  · have maps := Instrument.onDevice_maps Instrument.pageSize m c.calibration
    have applied := set.apply_value maps.sound.fullSize
    have accepted : ∀ s ∈ set.accepted, s.refusal? = none := fun _ member =>
      ParameterSet.refusal?_of_mem_accepted member
    have stored := Instrument.storedBy_putAll maps.sound accepted
    refine ⟨?_, ?_, Options.memoryAt_of_applies applies⟩
    · rw [applied]
      exact maps.putAll _
    · rw [applied]
      exact stored

/-- Without a settings file, a set whose second limit is a NaN: the run fails, and the device keeps the first
limit of that set. A status on the same device leaves it alone. -/
theorem run_outcome_at_a_refused_limit :
    let o : Options := { config := "x", json := true }
    let document := "limits = [[1, 0.5, nan]]"
    let m : Memory := ⟨fun _ => 0xFF⟩
    let s : Surroundings :=
      { read := fun path => if path = "-p" then .ok document.toUTF8 else .error .notFound
        memory := fun path => if path = "/dev/mem" then .ok m else .error .notFound
        writable := fun _ => .ok () }
    let load := ((Request.ofArguments (o.words ++ ["load", "--", "-p"])).perform s).value
    let status := ((Request.ofArguments (o.words ++ [])).perform s).value
    load.exitCode = 1 ∧
      (∃ left : Memory, load.memoryAt s "/dev/mem" = .ok left ∧ left.byte 0x405FFFFF = 0xFF ∧
        left.readWord 0x40600000 = 0xFFFFE000) ∧
      status.exitCode = 0 ∧ status.memoryAt s "/dev/mem" = .ok m := by
  intro o document m s load status
  have named : o.config ≠ "" := by decide
  have set : Toml.decodeFile ParameterSet.ofTable? (s.read "-p") =
      .ok ⟨[], [⟨.one, .ofRat (1 / 2), .nan false⟩]⟩ := by
    change Toml.decodeFile _ (.ok document.toUTF8) = _
    rw [Toml.decodeFile_toUTF8]
    decide +kernel
  have applies : o.Applies (.load "-p") s { simulate := false } m _ :=
    { settings := rfl
      fit := ⟨by decide, fun _ => by decide, by decide +kernel⟩
      mapped := rfl
      device := rfl
      parameters := by rw [Command.parameters?, set]; rfl }
  have named' : ∀ command ∈ some (Command.load "-p"), command.Named := by
    rintro _ ⟨⟩
    change "-p" ≠ ""
    decide
  obtain ⟨success, failure, applied, -⟩ :=
    run_outcome named named' s
  have unnamed : ∀ command ∈ (none : Option Command), command.Named := by rintro _ ⟨⟩
  obtain ⟨success', -, -, kept⟩ := run_outcome named unnamed s
  obtain ⟨maps, -, left⟩ := applied _ _ _ applies
  refine ⟨failure fun zero => ?_, ⟨_, left "/dev/mem", ?_, ?_⟩, success'.mpr ?_, ?_⟩
  · obtain ⟨c, -, -, -, set', read, acceptable⟩ := success.mp zero
    obtain rfl := Except.ok.inj (set.symm.trans read)
    have refused := (acceptable.limits _ List.mem_cons_self).high.1
    cases refused
  · refine (maps.elsewhere ?_).trans rfl
    rintro (_ | _ | _) ⟨low, high⟩ <;> revert low high <;> decide
  · decide +kernel
  · exact ⟨_, applies.settings, applies.fit, .inr ⟨m, rfl⟩, trivial⟩
  · refine (kept ?_ "/dev/mem").trans rfl
    rintro c m set ⟨-, -, -, -, parameters⟩
    cases parameters

end LockServo

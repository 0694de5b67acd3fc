import LockServo.Command.Run
import LockServo.Proofs.Instrument.Device

/-!
# The stages of a run

The settings are read and judged, the instrument is brought up, the command does its work: when each of
these succeeds. Of all commands only loading writes registers, and it leaves them as its parameter set does,
a refused value included.
-/

namespace LockServo

open Register

/-! ## Settings -/

namespace Settings

structure Fit (c : Settings) : Prop where
  service : c.serviceName ≠ ""
  device : c.simulate = false → c.device ≠ ""
  calibration : c.calibration.hasFiniteValues = true

theorem validate_eq_ok_iff (c : Settings) : c.validate = .ok () ↔ c.Fit := by
  have fit : c.Fit ↔ c.serviceName ≠ "" ∧ (c.simulate = false → c.device ≠ "") ∧
      c.calibration.hasFiniteValues = true :=
    ⟨fun h => ⟨h.service, h.device, h.calibration⟩, fun h => ⟨h.1, h.2.1, h.2.2⟩⟩
  rw [fit, validate]
  by_cases service : c.serviceName = "" <;> by_cases device : c.device = "" <;>
    cases c.simulate <;> cases c.calibration.hasFiniteValues <;> simp [service, device]

def instrument? (c : Settings) (device : Except FileCause Memory) : Option (Instrument Binary64) :=
  if c.simulate then some (.blank c.calibration)
  else device.toOption.map fun m => .onDevice Instrument.pageSize m c.calibration

theorem start_value (c : Settings) (device : Except FileCause Memory) :
    (c.start device).value.toOption = c.instrument? device := by
  unfold start instrument?
  split
  · rfl
  · cases device with
    | error cause => rfl
    | ok m =>
      have mapped := Instrument.map_value m c.calibration (Block.mapping_not_refused (k := 12) (by decide))
      exact congrArg Except.toOption mapped

end Settings

namespace Options

def inEffect? (o : Options) (file : Except FileCause ByteArray) : Option Settings :=
  match Settings.load file with
  | .ok c => some { c with simulate := o.simulate || c.simulate }
  | .error .notFound => some { simulate := o.simulate }
  | .error _ => none

theorem force_value (o : Options) (c : Settings) :
    (settings.force o c).value =
      ({ c with simulate := o.simulate || c.simulate } : Settings).validate.map
        fun _ => { c with simulate := o.simulate || c.simulate } := by
  unfold settings.force
  split <;> rfl

theorem settings_value_eq_ok_iff {o : Options} {file : Except FileCause ByteArray} {c : Settings} :
    (o.settings file).value = .ok c ↔ o.inEffect? file = some c ∧ c.Fit := by
  have forced : ∀ d : Settings, (settings.force o d).value = .ok c ↔
      some { d with simulate := o.simulate || d.simulate } = some c ∧ c.Fit := by
    intro d
    rw [force_value, ← Settings.validate_eq_ok_iff, Option.some_inj]
    constructor
    · intro h
      cases verdict : ({ d with simulate := o.simulate || d.simulate } : Settings).validate with
      | error fault =>
        rw [verdict] at h
        cases h
      | ok =>
        rw [verdict] at h
        exact ⟨Except.ok.inj h, Except.ok.inj h ▸ verdict⟩
    · rintro ⟨rfl, verdict⟩
      rw [verdict]
      rfl
  unfold settings inEffect?
  cases Settings.load file with
  | ok d => exact forced d
  | error fault =>
    cases fault with
    | notFound =>
      have start := forced {}
      rw [Bool.or_false] at start
      exact start
    | _ => simp

end Options

/-! ## Commands -/

namespace Command

namespace Work

variable {α β : Type} {i j : Instrument Binary64}

theorem bind_value_of_ok {w : Work α} {a : α} (h : (w.run.run i).value = (.ok a, j)) (f : α → Work β) :
    ((w >>= f).run.run i).value = ((f a).run.run j).value := by
  rw [ExceptT.run_bind, StateT.run_bind, Logged.bind_value, h]

theorem bind_value_of_error {w : Work α} {failure : Failure}
    (h : (w.run.run i).value = (.error failure, j)) (f : α → Work β) :
    ((w >>= f).run.run i).value = (.error failure, j) := by
  rw [ExceptT.run_bind, StateT.run_bind, Logged.bind_value, h]
  rfl

theorem ofAction_value (action : Action Binary64 α) (i : Instrument Binary64) :
    ((ofAction action).run.run i).value =
      ((action.perform i).value.1.mapError .instrument, (action.perform i).value.2) := by
  rw [ofAction, ExceptT.run_mk, StateT.run_bind, Logged.bind_value]
  rw [Action.perform]
  cases (StateT.run (ExceptT.run action) i).value.1 <;> rfl

theorem ofDocument_value (x : Reporting (Except DocumentFault α)) (i : Instrument Binary64) :
    ((ofDocument x).run.run i).value = (x.value.mapError .document, i) := by
  rw [ofDocument, ExceptT.run_mk, StateT.run_bind, Logged.bind_value, StateT.run_monadLift, Logged.bind_value]
  cases x.value <;> rfl

end Work

/-- Whether a command has all it needs besides an instrument. -/
def Succeeds (s : Surroundings) : Command → Prop
  | .status | .pins => True
  | .save path => s.writable path = .ok ()
  | .load path => ∃ set : ParameterSet Binary64,
      Toml.decodeFile ParameterSet.ofTable? (s.read path) = .ok set ∧ set.Acceptable

def parameters? (s : Surroundings) : Command → Option (ParameterSet Binary64)
  | .load path => (Toml.decodeFile ParameterSet.ofTable? (s.read path)).toOption
  | _ => none

def after (s : Surroundings) (command : Command) (i : Instrument Binary64) : Instrument Binary64 :=
  match command.parameters? s with
  | some set => (set.apply.perform i).value.2
  | none => i

theorem pinReport_value {i : Instrument Binary64} (h : i.FullSize) :
    ∃ document : Table, (pinReport.perform i).value = (.ok document, i) := by
  have pin : ∀ p : Pin, ∃ v : Value, ((do
      let volts ← Action.pinValue p
      return Value.table [("pin", .string p.name), ("volts", .float volts)] :
        Action Binary64 Value).perform i).value = (.ok v, i) := by
    intro p
    cases p with
    | input k => exact ⟨_, Action.perform_bind_value_of_ok (Query.slowInput_value h k) _⟩
    | output k => exact ⟨_, Action.perform_bind_value_of_ok (Action.pinValue_value h k) _⟩
  have fast : ∀ c : Channel, ∃ v : Value, ((do
      let input ← Action.inputVoltage c
      let output ← Action.outputVoltage c
      return Value.table
        [("channel", c.toValue), ("input_volts", .float input), ("output_volts", .float output)] :
        Action Binary64 Value).perform i).value = (.ok v, i) := by
    intro c
    rw [Action.perform_bind_value_of_ok (Query.inputVoltage_value h c),
      Action.perform_bind_value_of_ok (Query.outputVoltage_value h c)]
    exact ⟨_, rfl⟩
  choose readPin hPin using pin
  choose readFast hFast using fast
  rw [pinReport, Action.perform_bind_value_of_ok (Action.mapM_value hPin Pin.all),
    Action.perform_bind_value_of_ok (Action.mapM_value hFast Channel.all)]
  exact ⟨_, rfl⟩

/-- A command succeeds or fails, and leaves the instrument, as `Succeeds` and `after` say. -/
theorem work_value (s : Surroundings) (command : Command) {i : Instrument Binary64} (h : i.FullSize) :
    ((∃ product : Product, ((command.work s).run.run i).value = (.ok product, command.after s i)) ∧
      command.Succeeds s) ∨
    ((∃ failure : Failure, ((command.work s).run.run i).value = (.error failure, command.after s i)) ∧
      ¬ command.Succeeds s) := by
  have captured : ((Work.ofAction ParameterSet.capture).run.run i).value = (.ok i.parameters, i) := by
    rw [Work.ofAction_value, ParameterSet.capture_value h]
    rfl
  cases command with
  | status =>
    refine .inl ⟨?_, trivial⟩
    rw [work, Work.bind_value_of_ok captured]
    exact ⟨_, rfl⟩
  | pins =>
    obtain ⟨document, read⟩ := pinReport_value h
    have reported : ((Work.ofAction pinReport).run.run i).value = (.ok document, i) := by
      rw [Work.ofAction_value, read]
      rfl
    refine .inl ⟨?_, trivial⟩
    rw [work, Work.bind_value_of_ok reported]
    exact ⟨_, rfl⟩
  | save path =>
    rw [work, Work.bind_value_of_ok captured]
    have saved := Work.ofDocument_value (i.parameters.save (s.writable path)) i
    unfold ParameterSet.save Toml.encodeFile at saved
    cases target : s.writable path with
    | ok =>
      rw [target] at saved
      refine .inl ⟨?_, target⟩
      rw [ParameterSet.save, Toml.encodeFile, Work.bind_value_of_ok saved]
      exact ⟨_, rfl⟩
    | error cause =>
      rw [target] at saved
      refine .inr ⟨?_, fun ok => by cases target.symm.trans ok⟩
      rw [ParameterSet.save, Toml.encodeFile]
      exact ⟨_, Work.bind_value_of_error saved _⟩
  | load path =>
    have loaded := Work.ofDocument_value (ParameterSet.load (s.read path)) i
    unfold ParameterSet.load at loaded
    cases found : Toml.decodeFile ParameterSet.ofTable? (s.read path) with
    | error fault =>
      rw [found] at loaded
      have none : (load path).after s i = i := by rw [after, parameters?, found]; rfl
      refine .inr ⟨?_, ?_⟩
      · rw [work, ParameterSet.load, found, none]
        exact ⟨_, Work.bind_value_of_error loaded _⟩
      · rintro ⟨set, read, -⟩
        cases found.symm.trans read
    | ok set =>
      rw [found] at loaded
      have applied := Work.ofAction_value set.apply i
      have some : (load path).after s i = (set.apply.perform i).value.2 := by
        rw [after, parameters?, found]; rfl
      rw [set.apply_value h] at applied some
      rw [work, ParameterSet.load, found, Work.bind_value_of_ok loaded, some]
      cases verdict : set.refusal? with
      | none =>
        rw [verdict] at applied
        refine .inl ⟨?_, set, found, (set.refusal?_eq_none_iff).mp verdict⟩
        rw [Work.bind_value_of_ok applied]
        exact ⟨_, rfl⟩
      | some fault =>
        rw [verdict] at applied
        refine .inr ⟨⟨_, Work.bind_value_of_error applied _⟩, ?_⟩
        rintro ⟨set', read, acceptable⟩
        obtain rfl := Except.ok.inj (found.symm.trans read)
        cases verdict.symm.trans ((set.refusal?_eq_none_iff).mpr acceptable)

end Command

end LockServo

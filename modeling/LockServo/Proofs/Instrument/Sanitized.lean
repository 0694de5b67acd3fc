import LockServo.Call
import LockServo.Proofs.Conversion.Sanitized
import LockServo.Proofs.Instrument.Actions

/-!
# Runs under sanitized records

An instrument does the same whether it is given records of calibration with unusable numbers or their
sanitized forms. Only its log tells: under the former each use of an unusable number is reported, by a
call that converts through that very channel and side.
-/

namespace LockServo

open Arithmetic Register

/-! ## Sanitized records, instruments and calls -/

namespace Calibration

variable (c : Calibration Binary64) (d : Channel)

theorem input_sanitized : c.sanitized.input.get d = (c.input.get d).sanitized := by
  cases d <;> rfl

theorem output_sanitized : c.sanitized.output.get d = (c.output.get d).sanitized := by
  cases d <;> rfl

def corrections : List (Correction Binary64) := c.input.toList ++ c.output.toList

theorem input_mem_corrections : c.input.get d ∈ c.corrections := by
  cases d <;> simp [corrections, PerChannel.toList, PerChannel.get]

theorem output_mem_corrections : c.output.get d ∈ c.corrections := by
  cases d <;> simp [corrections, PerChannel.toList, PerChannel.get]

end Calibration

def Instrument.sanitized (i : Instrument Binary64) : Instrument Binary64 :=
  { i with calibration := i.calibration.sanitized }

def Answer.sanitized : Answer Binary64 → Answer Binary64
  | .calibration record => .calibration record.sanitized
  | answer => answer

namespace Call

def onSanitized (result : Except (Fault Binary64) (Answer Binary64) × Instrument Binary64) :
    Except (Fault Binary64) (Answer Binary64) × Instrument Binary64 :=
  (result.1.map Answer.sanitized, result.2.sanitized)

/-- The call with the sanitized form of the record that it puts in force, if any. -/
def sanitized : Call Binary64 → Call Binary64
  | .store (.reload record) => .store (.reload record.sanitized)
  | .exchange record => .exchange record.sanitized
  | call => call

def answersRecord : Call Binary64 → Bool
  | .ask .calibration | .exchange _ => true
  | _ => false

/-- The corrections that a call converts under: of the input for setpoints and fast inputs, of the output
for limits and fast outputs. -/
def corrections (c : Calibration Binary64) : Call Binary64 → List (Correction Binary64)
  | .store (.setpoint l _) | .ask (.setpoint l) => [c.input.get l.input]
  | .store (.limit d _ _) | .ask (.limit d _) => [c.output.get d]
  | .ask (.inputVoltage d) => [c.input.get d]
  | .ask (.outputVoltage d) => [c.output.get d]
  | .ask .capture => c.corrections
  | .apply set =>
    set.loops.map (fun p => c.input.get p.loop.input) ++ set.limits.map fun p => c.output.get p.channel
  | _ => []

end Call

/-! ## Actions -/

namespace Action

variable {α β : Type}

def onSanitized (result : Except (Fault Binary64) α × Instrument Binary64) :
    Except (Fault Binary64) α × Instrument Binary64 :=
  (result.1, result.2.sanitized)

/-- While a record is in force, the second action does on a sanitized instrument what the first one does,
and the first one reports no replacement but of some corrections' numbers. -/
structure Silences (c : Calibration Binary64) (causes : List (Correction Binary64))
    (x y : Action Binary64 α) : Prop where
  perform {i : Instrument Binary64} : i.calibration = c →
    SilencesUnder causes onSanitized (x.perform i) (y.perform i.sanitized)
  keeps {i : Instrument Binary64} : i.calibration = c → (x.perform i).value.2.calibration = c

namespace Silences

variable {c : Calibration Binary64} {causes : List (Correction Binary64)} {x y : Action Binary64 α}

theorem pure (a : α) : Silences c causes (Pure.pure a) (Pure.pure a) where
  perform {i} _ := SilencesUnder.pure onSanitized (Except.ok a, i)
  keeps h := h

theorem throw (fault : Fault Binary64) :
    Silences c causes (MonadExcept.throw fault : Action Binary64 α) (MonadExcept.throw fault) where
  perform {i} _ := SilencesUnder.pure onSanitized (Except.error fault, i)
  keeps h := h

theorem bind {f g : α → Action Binary64 β} (first : Silences c causes x y)
    (later : ∀ a, Silences c causes (f a) (g a)) : Silences c causes (x >>= f) (y >>= g) where
  perform {i} h := by
    rw [perform_bind, perform_bind]
    refine (first.perform h).bind ?_
    have kept := first.keeps h
    generalize (x.perform i).value = result at kept
    obtain ⟨outcome, j⟩ := result
    cases outcome with
    | ok a => exact (later a).perform kept
    | error fault => exact SilencesUnder.pure onSanitized (Except.error fault, j)
  keeps {i} h := by
    have kept := first.keeps h
    rw [perform_bind, Logged.bind_value]
    generalize (x.perform i).value = result at kept
    obtain ⟨outcome, j⟩ := result
    cases outcome with
    | ok a => exact (later a).keeps kept
    | error fault => exact kept

theorem calibration {f : Calibration Binary64 → Action Binary64 α}
    (later : Silences c causes (f c) (f c.sanitized)) :
    Silences c causes (Action.calibration >>= f) (Action.calibration >>= f) where
  perform {i} h := by
    subst h
    exact later.perform rfl
  keeps {i} h := by
    subst h
    exact later.keeps rfl

theorem ofReporting {x y : Reporting α} (h : SilencesUnder causes id x y) :
    Silences c causes (Action.ofReporting x) (Action.ofReporting y) where
  perform _ := by
    rw [perform_ofReporting, perform_ofReporting]
    exact h.map rfl
  keeps h := h

theorem report {e : Event} (plain : e.isReplacement = false) :
    Silences c causes (Action.ofReporting (LockServo.report e)) (Action.ofReporting (LockServo.report e)) :=
  ofReporting (.of_forall (List.forall_mem_singleton.mpr plain))

theorem ofConversion {x y : Conversion Binary64 α} (h : SilencesUnder causes id x.run y.run) :
    Silences c causes (Action.ofConversion x) (Action.ofConversion y) where
  perform _ := by
    rw [perform_ofConversion, perform_ofConversion]
    exact h.map rfl
  keeps h := h

theorem ofRange (x : Except RangeFault α) : Silences c causes (Action.ofRange x) (Action.ofRange x) := by
  cases x with
  | ok a => exact .pure a
  | error fault => exact .throw (.outOfRange fault)

theorem query (b : Block) (f : View → Except RangeFault α) :
    Silences c causes (Action.query b f) (Action.query b f) where
  perform {i} h := (ofRange (f (i.view b))).perform h
  keeps {i} h := by
    have range : Silences c causes (Action.ofRange (f (i.view b))) _ := ofRange _
    exact range.keeps h

theorem setView (b : Block) (v : View) :
    Silences c causes (modify (·.setView b v)) (modify (·.setView b v)) where
  perform {i} _ := by
    have apart : i.sanitized.setView b v = (i.setView b v).sanitized := by cases b <;> rfl
    change SilencesUnder causes _ (Pure.pure (Except.ok (), i.setView b v))
      (Pure.pure (Except.ok (), i.sanitized.setView b v))
    rw [apart]
    exact .pure onSanitized (Except.ok (), i.setView b v)
  keeps {i} h := (Instrument.setView_calibration i b v).trans h

theorem update (b : Block) (f : View → Except RangeFault View) :
    Silences c causes (Action.update b f) (Action.update b f) where
  perform {i} h := ((ofRange (f (i.view b))).bind (setView b)).perform h
  keeps {i} h := by
    have range : Silences c causes (Action.ofRange (f (i.view b))) _ := ofRange _
    exact (range.bind (setView b)).keeps h

theorem forM {ι : Type} {f : ι → Action Binary64 Unit} {as : List ι}
    (step : ∀ a ∈ as, Silences c causes (f a) (f a)) : Silences c causes (as.forM f) (as.forM f) := by
  induction as with
  | nil => exact .pure ()
  | cons a rest ih =>
    exact (step a List.mem_cons_self).bind fun _ => ih fun b member => step b (List.mem_cons_of_mem a member)

theorem mapM {ι : Type} {f : ι → Action Binary64 α} (step : ∀ a, Silences c causes (f a) (f a)) (as : List ι) :
    Silences c causes (as.mapM f) (as.mapM f) := by
  induction as with
  | nil => exact .pure []
  | cons a rest ih =>
    rw [List.mapM_cons]
    exact (step a).bind fun _ => ih.bind fun _ => .pure _

/-! ## Setters and getters -/

theorem readField (f : Field) : Silences c causes (Action.readField f) (Action.readField f) := query _ _

theorem writeField (f : Field) (value : UInt32) :
    Silences c causes (Action.writeField f value) (Action.writeField f value) := update _ _

/-- A count is stored after the setter was reported. -/
theorem store {x y : Conversion Binary64 UInt32} (h : SilencesUnder causes id x.run y.run)
    (parameter : Parameter) (f : Field) :
    Silences c causes
      (Action.ofConversion x >>= fun count => do
        Action.ofReporting (LockServo.report (.setting parameter))
        Action.writeField f count)
      (Action.ofConversion y >>= fun count => do
        Action.ofReporting (LockServo.report (.setting parameter))
        Action.writeField f count) :=
  (ofConversion h).bind fun count => (report rfl).bind fun _ => writeField f count

theorem setGain (quantity : Quantity) (factor : Rat) (parameter : Parameter) (f : Field) (value : Binary64) :
    Silences c causes (Action.setGain quantity factor parameter f value)
      (Action.setGain quantity factor parameter f value) :=
  store (.of_forall (Gain.encode_replaces_nothing quantity (ofRat factor) f.mask value)) parameter f

theorem gain (factor : Rat) (f : Field) :
    Silences c causes (Action.gain factor f) (Action.gain factor f) :=
  (readField f).bind fun _ => .pure _

theorem setRelockBound (parameter : Parameter) (f : Field) (volts : Binary64) :
    Silences c causes (Action.setRelockBound parameter f volts) (Action.setRelockBound parameter f volts) :=
  store (.of_forall (Span.encodeInput_replaces_nothing volts)) parameter f

theorem relockBound (f : Field) :
    Silences c causes (Action.relockBound f : Action Binary64 Binary64) (Action.relockBound f) :=
  (readField f).bind fun _ => .pure _

theorem setDerivative (l : Loop) (count : UInt32) :
    Silences c causes (Action.setDerivative l count) (Action.setDerivative l count) :=
  (report rfl).bind fun _ => writeField _ count

theorem setFeature (l : Loop) (f : Feature) (on : Bool) :
    Silences c causes (Action.setFeature l f on) (Action.setFeature l f on) :=
  (report rfl).bind fun _ => update _ _

theorem setFeatures (l : Loop) (set : FeatureSet) :
    Silences c causes (Action.setFeatures l set) (Action.setFeatures l set) :=
  (report rfl).bind fun _ => update _ _

theorem features (l : Loop) : Silences c causes (Action.features l) (Action.features l) :=
  (readField .features).bind fun _ => .pure _

theorem setRelockPin (l : Loop) (p : Pin) :
    Silences c causes (Action.setRelockPin l p) (Action.setRelockPin l p) := by
  cases p with
  | output k => exact .throw _
  | input k => exact (report rfl).bind fun _ => writeField _ _

theorem setRelockCode (l : Loop) (code : Nat) :
    Silences c causes (Action.setRelockCode l code) (Action.setRelockCode l code) :=
  (ofRange _).bind fun p => setRelockPin l p

theorem relockPin (l : Loop) : Silences c causes (Action.relockPin l) (Action.relockPin l) :=
  (readField _).bind fun _ => ofRange _

theorem pinValue (p : Pin) :
    Silences c causes (Action.pinValue p : Action Binary64 Binary64) (Action.pinValue p) := by
  cases p with
  | output k => exact (readField _).bind fun _ => .pure _
  | input k => exact (readField _).bind fun _ => .pure _

theorem setPinValue (p : Pin) (volts : Binary64) :
    Silences c causes (Action.setPinValue p volts) (Action.setPinValue p volts) := by
  cases p with
  | output k => exact store (.of_forall (Span.encodeOutput_replaces_nothing volts)) _ _
  | input k => exact .throw _

theorem resetPins : Silences c causes (Action.resetPins : Action Binary64 Unit) Action.resetPins :=
  (forM fun p _ => writeField (.slowOutput p.index) 0).bind fun _ => report rfl

/-! ### Through the calibration -/

section

variable {d : Channel} (cause : c.input.get d ∈ causes)
include cause

theorem inputVoltage : Silences c causes (Action.inputVoltage d) (Action.inputVoltage d) := by
  refine (readField _).bind fun word => .calibration ?_
  rw [c.input_sanitized]
  exact ofReporting (.decode cause _ _ word)

end

section

variable {l : Loop} (cause : c.input.get l.input ∈ causes)
include cause

theorem setSetpoint (volts : Binary64) :
    Silences c causes (Action.setSetpoint l volts) (Action.setSetpoint l volts) := by
  refine .calibration ?_
  rw [c.input_sanitized]
  exact store (.encode cause _ _ volts) _ _

theorem setpoint : Silences c causes (Action.setpoint l) (Action.setpoint l) := by
  refine (readField _).bind fun count => .calibration ?_
  rw [c.input_sanitized]
  exact ofReporting (.decode cause _ _ count)

theorem captureLoop : Silences c causes (LoopParameters.capture l) (LoopParameters.capture l) :=
  (setpoint cause).bind fun _ => (gain _ _).bind fun _ => (gain _ _).bind fun _ =>
    (readField _).bind fun _ => (features l).bind fun _ => (relockBound _).bind fun _ =>
    (relockBound _).bind fun _ => (gain _ _).bind fun _ => (relockPin l).bind fun _ => .pure _

end

section

variable {d : Channel} (cause : c.output.get d ∈ causes)
include cause

theorem outputVoltage : Silences c causes (Action.outputVoltage d) (Action.outputVoltage d) := by
  refine (readField _).bind fun word => .calibration ?_
  rw [c.output_sanitized]
  exact ofReporting (.decode cause _ _ word)

theorem setLimit (b : Bound) (volts : Binary64) :
    Silences c causes (Action.setLimit d b volts) (Action.setLimit d b volts) := by
  refine .calibration ?_
  rw [c.output_sanitized]
  exact store (.encode cause _ _ volts) _ _

theorem limit (b : Bound) : Silences c causes (Action.limit d b) (Action.limit d b) := by
  refine (readField _).bind fun count => .calibration ?_
  rw [c.output_sanitized]
  exact ofReporting (.decode cause _ _ count)

theorem captureLimits : Silences c causes (LimitParameters.capture d) (LimitParameters.capture d) :=
  (limit cause .low).bind fun _ => (limit cause .high).bind fun _ => .pure _

end

/-! ### Whole parameter sets -/

theorem applyLoop {p : LoopParameters Binary64} (cause : c.input.get p.loop.input ∈ causes) :
    Silences c causes p.apply p.apply :=
  (setSetpoint cause p.setpoint).bind fun _ => (setGain _ _ _ _ p.proportional).bind fun _ =>
    (setGain _ _ _ _ p.integral).bind fun _ => (setDerivative p.loop p.derivative).bind fun _ =>
    (setRelockBound _ _ p.relockLow).bind fun _ => (setRelockBound _ _ p.relockHigh).bind fun _ =>
    (setGain _ _ _ _ p.relockStep).bind fun _ => (setRelockPin p.loop p.relockPin).bind fun _ =>
    setFeatures p.loop p.features

theorem applyLimits {p : LimitParameters Binary64} (cause : c.output.get p.channel ∈ causes) :
    Silences c causes p.apply p.apply :=
  (setLimit cause .low p.low).bind fun _ => setLimit cause .high p.high

theorem applySet (set : ParameterSet Binary64) :
    Silences c (Call.corrections c (.apply set)) set.apply set.apply := by
  refine (forM fun p member => applyLoop ?_).bind fun _ =>
    (forM fun p member => applyLimits ?_).bind fun _ => report rfl
  · exact List.mem_append_left _ (List.mem_map_of_mem member)
  · exact List.mem_append_right _ (List.mem_map_of_mem member)

theorem captureSet : Silences c c.corrections (ParameterSet.capture : Action Binary64 (ParameterSet Binary64))
    ParameterSet.capture :=
  (mapM (fun l => captureLoop (c.input_mem_corrections l.input)) _).bind fun _ =>
    (mapM (fun d => captureLimits (c.output_mem_corrections d)) _).bind fun _ => .pure _

end Silences

/-! ## Answers -/

variable {g : α → Answer Binary64}

theorem map_sanitized_answer (x : Action Binary64 α) (i : Instrument Binary64)
    (plain : ∀ a, (g a).sanitized = g a) :
    ((x >>= fun a => (pure (g a) : Action Binary64 (Answer Binary64))).perform i).value.1.map
        Answer.sanitized =
      ((x >>= fun a => (pure (g a) : Action Binary64 (Answer Binary64))).perform i).value.1 := by
  rw [perform_bind, Logged.bind_value]
  generalize (x.perform i).value = result
  obtain ⟨outcome, j⟩ := result
  cases outcome with
  | ok a => exact congrArg Except.ok (plain a)
  | error fault => rfl

theorem Silences.answer {c : Calibration Binary64} {causes : List (Correction Binary64)}
    {x y : Action Binary64 α} (h : Silences c causes x y) {i : Instrument Binary64}
    (plain : ∀ a, (g a).sanitized = g a) (same : i.calibration = c) :
    SilencesUnder causes Call.onSanitized
      ((x >>= fun a => (Pure.pure (g a) : Action Binary64 (Answer Binary64))).perform i)
      ((y >>= fun a => (Pure.pure (g a) : Action Binary64 (Answer Binary64))).perform i.sanitized) :=
  ((h.bind fun a => .pure (g a)).perform same).congr
    (congrArg (·, _) (map_sanitized_answer x i plain).symm)

end Action

/-! ## Calls and runs -/

namespace Call

open Action.Silences in
theorem query_silences {i : Instrument Binary64} (q : Query) :
    SilencesUnder (corrections i.calibration (.ask q)) onSanitized
      (q.perform.perform i) (q.perform.perform i.sanitized) := by
  have own (k : Correction Binary64) : k ∈ [k] := List.mem_singleton.mpr rfl
  cases q with
  | setpoint l => exact (setpoint (own _)).answer (fun _ => rfl) rfl
  | limit d b => exact (limit (own _) b).answer (fun _ => rfl) rfl
  | inputVoltage d => exact (inputVoltage (own _)).answer (fun _ => rfl) rfl
  | outputVoltage d => exact (outputVoltage (own _)).answer (fun _ => rfl) rfl
  | proportional l => exact (gain _ _).answer (fun _ => rfl) rfl
  | integral l => exact (gain _ _).answer (fun _ => rfl) rfl
  | derivative l => exact (readField _).answer (fun _ => rfl) rfl
  | feature l f => exact (query _ _).answer (fun _ => rfl) rfl
  | features l => exact (features l).answer (fun _ => rfl) rfl
  | featureWord => exact (readField _).answer (fun _ => rfl) rfl
  | relockLow l => exact (relockBound _).answer (fun _ => rfl) rfl
  | relockHigh l => exact (relockBound _).answer (fun _ => rfl) rfl
  | relockStep l => exact (gain _ _).answer (fun _ => rfl) rfl
  | relockPin l => exact (relockPin l).answer (fun _ => rfl) rfl
  | pinValue p => exact (pinValue p).answer (fun _ => rfl) rfl
  | capture => exact captureSet.answer (fun _ => rfl) rfl
  | calibration => exact .pure onSanitized (.ok (.calibration i.calibration), i)

open Action.Silences in
theorem store_silences {i : Instrument Binary64} (s : Setter Binary64) :
    SilencesUnder (corrections i.calibration (.store s)) onSanitized
      ((store s).perform.perform i) ((store s).sanitized.perform.perform i.sanitized) := by
  have own (k : Correction Binary64) : k ∈ [k] := List.mem_singleton.mpr rfl
  cases s with
  | setpoint l v => exact (setSetpoint (own _) v).answer (fun _ => rfl) rfl
  | limit d b v => exact (setLimit (own _) b v).answer (fun _ => rfl) rfl
  | proportional l v => exact (setGain _ _ _ _ v).answer (fun _ => rfl) rfl
  | integral l v => exact (setGain _ _ _ _ v).answer (fun _ => rfl) rfl
  | derivative l n => exact (setDerivative l n).answer (fun _ => rfl) rfl
  | feature l f on => exact (setFeature l f on).answer (fun _ => rfl) rfl
  | features l set => exact (setFeatures l set).answer (fun _ => rfl) rfl
  | relockLow l v => exact (setRelockBound _ _ v).answer (fun _ => rfl) rfl
  | relockHigh l v => exact (setRelockBound _ _ v).answer (fun _ => rfl) rfl
  | relockStep l v => exact (setGain _ _ _ _ v).answer (fun _ => rfl) rfl
  | relockPin l p => exact (setRelockPin l p).answer (fun _ => rfl) rfl
  | relockCode l n => exact (setRelockCode l n).answer (fun _ => rfl) rfl
  | pinValue p v => exact (setPinValue p v).answer (fun _ => rfl) rfl
  | resetPins => exact resetPins.answer (fun _ => rfl) rfl
  | reload record =>
    refine ⟨⟨rfl, rfl⟩, fun e member replacement => ?_⟩
    rw [List.mem_singleton.mp member] at replacement
    cases replacement

/-- A call and its sanitized form do the same on an instrument and on the sanitized one. -/
theorem silences (call : Call Binary64) (i : Instrument Binary64) :
    SilencesUnder (call.corrections i.calibration) onSanitized
      (call.perform.perform i) (call.sanitized.perform.perform i.sanitized) := by
  cases call with
  | store s => exact store_silences s
  | ask q => exact query_silences q
  | apply set => exact (Action.Silences.applySet set).answer (fun _ => rfl) rfl
  | exchange record =>
    exact .pure onSanitized (.ok (.calibration i.calibration), { i with calibration := record })

theorem run_silences (calls : List (Call Binary64)) (i : Instrument Binary64) :
    Silences (Prod.map (List.map (Except.map Answer.sanitized)) Instrument.sanitized)
      (run calls i) (run (calls.map sanitized) i.sanitized) := by
  induction calls generalizing i with
  | nil => exact ⟨rfl, rfl⟩
  | cons call rest ih =>
    rw [List.map_cons, run, run]
    exact (call.silences i).toSilences.bind ((ih _).bind ⟨rfl, rfl⟩)

theorem map_sanitized_answer {call : Call Binary64} (plain : call.answersRecord = false)
    (i : Instrument Binary64) :
    (call.perform.perform i).value.1.map Answer.sanitized = (call.perform.perform i).value.1 := by
  cases call with
  | store s => exact Action.map_sanitized_answer s.perform i fun _ => rfl
  | apply set => exact Action.map_sanitized_answer set.apply i fun _ => rfl
  | exchange record => cases plain
  | ask q =>
    cases q with
    | calibration => cases plain
    | _ => exact Action.map_sanitized_answer _ i fun _ => rfl

theorem map_sanitized_answers {calls : List (Call Binary64)}
    (plain : ∀ call ∈ calls, call.answersRecord = false) (i : Instrument Binary64) :
    (run calls i).value.1.map (Except.map Answer.sanitized) = (run calls i).value.1 := by
  induction calls generalizing i with
  | nil => rfl
  | cons call rest ih =>
    obtain ⟨first, later⟩ := List.forall_mem_cons.mp plain
    rw [run, Logged.bind_value]
    exact List.cons_eq_cons.mpr ⟨map_sanitized_answer first i, ih later _⟩

section

variable {ν : Type} [Arithmetic ν]

theorem run_cons_events (call : Call ν) (rest : List (Call ν)) (i : Instrument ν) :
    (run (call :: rest) i).events =
      (call.perform.perform i).events ++ (run rest (call.perform.perform i).value.2).events := by
  simp only [run, Logged.bind_events, Logged.pure_events, List.append_nil]

theorem run_append_events (before rest : List (Call ν)) (i : Instrument ν) :
    (run (before ++ rest) i).events =
      (run before i).events ++ (run rest (run before i).value.2).events := by
  induction before generalizing i with
  | nil => rfl
  | cons call before ih =>
    rw [List.cons_append, run_cons_events, run_cons_events, ih, List.append_assoc]
    rfl

end

end Call

/-- An instrument answers, stores and reports the same under sanitized records, but for warnings of unusable
numbers: these only the other run gives, in calls that convert under such a number. -/
theorem unusable_numbers_only_warn (calls : List (Call Binary64)) (i : Instrument Binary64) :
    let ran := Call.run calls i
    let again := Call.run (calls.map Call.sanitized) i.sanitized
    (∀ k : Correction Binary64, k.sanitized =
      ⟨if k.gain.isUsableGain then k.gain else ofNat 1, if k.offset.isFinite then k.offset else ofNat 0⟩) ∧
    again.value.1 = ran.value.1.map (Except.map Answer.sanitized) ∧
    ((∀ call ∈ calls, call.answersRecord = false) → again.value.1 = ran.value.1) ∧
    again.value.2 = ran.value.2.sanitized ∧
    again.events = ran.events.filter (!·.isReplacement) ∧
    ∀ before call after, calls = before ++ call :: after →
      let j := (Call.run before i).value.2
      let step := call.perform.perform j
      ran.events = (Call.run before i).events ++ step.events ++ (Call.run after step.value.2).events ∧
      (call.sanitized.perform.perform j.sanitized).events = step.events.filter (!·.isReplacement) ∧
      ∀ e ∈ step.events, e.isReplacement = true →
        e.severity = .warn ∧ ∃ k ∈ call.corrections j.calibration, k.Explains e := by
  intro ran again
  have silent := Call.run_silences calls i
  have answers : again.value.1 = ran.value.1.map (Except.map Answer.sanitized) :=
    congrArg Prod.fst silent.value
  refine ⟨Correction.sanitized_eq, answers, ?_, congrArg Prod.snd silent.value, silent.events, ?_⟩
  · intro plain
    exact answers.trans (Call.map_sanitized_answers plain i)
  · intro before call after split j step
    have warns : SilencesUnder _ _ step _ := call.silences j
    refine ⟨?_, warns.events, fun e member replaces => ⟨?_, warns.explained e member replaces⟩⟩
    · subst split
      rw [Call.run_append_events, Call.run_cons_events, List.append_assoc]
    · cases e <;> first | rfl | cases replaces

/-- A NaN of a gain and an infinite offset before a reload, a zero below zero of a gain after it: the answers
are the same, the setpoint warns of both numbers and the limit of the gain in force, and a gain is set in
between without a warning. -/
theorem unusable_numbers_only_warn_across_a_reload :
    let spoiled : Calibration Binary64 := ⟨⟨.ideal, ⟨.nan false, .infinite true⟩⟩, .ideal, .ideal⟩
    let worse : Calibration Binary64 := ⟨⟨.ideal, .ideal⟩, ⟨Binary64.zero true, .ofRat (1 / 4)⟩, .ideal⟩
    let l : Loop := ⟨.two, .one⟩
    let earlier : List (Call Binary64) :=
      [.store (.setpoint l (.ofRat (1 / 2))), .store (.proportional l (.ofRat 3)), .store (.reload worse),
        .ask (.setpoint l)]
    let last : Call Binary64 := .store (.limit .one .high (.ofRat (1 / 2)))
    let ran := Call.run (earlier ++ [last]) (.blank spoiled)
    let again := Call.run ((earlier ++ [last]).map Call.sanitized) (Instrument.blank spoiled).sanitized
    again.value.1 = ran.value.1 ∧
      ran.events = [.unusableOffset, .unusableGain, .setting .setpoint, .setting .proportional,
        .calibrationReloaded, .unusableGain, .setting .limit] ∧
      again.events = [.setting .setpoint, .setting .proportional, .calibrationReloaded, .setting .limit] ∧
      ∃ k ∈ last.corrections worse, k.Explains .unusableGain := by
  intro spoiled worse l earlier last ran again
  obtain ⟨-, -, answers, -, log, calls⟩ := unusable_numbers_only_warn (earlier ++ [last]) (.blank spoiled)
  obtain ⟨-, -, explained⟩ := calls earlier last [] rfl
  have warned : ran.events = [.unusableOffset, .unusableGain, .setting .setpoint, .setting .proportional,
      .calibrationReloaded, .unusableGain, .setting .limit] := by decide +kernel
  have inForce : (Call.run earlier (.blank spoiled)).value.2.calibration = worse := by decide +kernel
  refine ⟨answers (by decide), warned, ?_, ?_⟩
  · rw [log, warned]
    rfl
  · rw [← inForce]
    exact (explained .unusableGain (by decide +kernel) rfl).2

end LockServo

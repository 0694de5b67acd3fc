import LockServo.Proofs.Instrument.Readings
import LockServo.Proofs.Instrument.Stores

/-!
# Capturing and restoring

A capture is the instrument's parameters, and applying a set is a run of setters. When every count,
decoded under one calibration, is encoded again under another, applying a capture puts one count into
each parameter place and touches nothing else.
-/

namespace LockServo

open Arithmetic Register

variable {ν : Type}

/-! ## Counts put back -/

namespace Register.Place

def ofLoop (l : Loop) : List Place :=
  [.number (.setpoint l), .number (.proportional l), .number (.integral l),
    .number (.derivative l), .number (.relockLow l), .number (.relockHigh l),
    .number (.relockStep l), .number (.relockPin l)] ++ Feature.all.map (.switch l)

def ofOutput (d : Channel) : List Place := [.number (.limit d .low), .number (.limit d .high)]

def parameters : List Place := Loop.all.flatMap ofLoop ++ Channel.all.flatMap ofOutput

theorem mem_parameters (p : Place) : p ∈ parameters ↔ p.isParameter = true := by
  constructor
  · revert p
    decide
  · intro parameter
    have inLoop : ∀ l, p ∈ ofLoop l → p ∈ parameters := fun l member =>
      List.mem_append_left _ (List.mem_flatMap_of_mem l.mem_all member)
    cases p with
    | switch l f => exact inLoop l (List.mem_append_right _ (List.mem_map_of_mem f.mem_all))
    | number f adjustable =>
      cases f with
      | features | slowInput | fastInput | fastOutput => cases adjustable
      | slowOutput k => cases parameter
      | limit d b =>
        exact List.mem_append_right _
          (List.mem_flatMap_of_mem d.mem_all (by cases b <;> simp [ofOutput]))
      | _ l => exact inLoop l (by simp [ofLoop])

end Register.Place

namespace Instrument

def restore (i : Instrument ν) (target : Place → UInt32) : Instrument ν :=
  i.putAll (Place.parameters.map fun p => (p, target p))

variable {i j : Instrument ν} {target : Place → UInt32}

theorem value_restore (h : j.Sound) (p : Place) :
    (j.restore target).value p =
      if p.isParameter then target p &&& p.mask else j.value p := by
  have places : (Place.parameters.map fun p => (p, target p)).map Prod.fst = Place.parameters := by
    rw [List.map_map]
    exact List.map_id _
  split
  · rename_i parameter
    refine value_putAll_of_forall _ h ?_ ?_
    · intro store member
      obtain ⟨q, -, rfl⟩ := List.mem_map.mp member
      rfl
    · rw [places]
      exact (Place.mem_parameters p).mpr parameter
  · rename_i other
    refine value_putAll_of_not_mem _ h ?_
    rw [places, Place.mem_parameters]
    exact other

theorem restore_sound (h : j.Sound) : (j.restore target).Sound :=
  putAll_sound _ h

theorem restore_calibration : (j.restore target).calibration = j.calibration :=
  putAll_calibration _ j

theorem bit_restore (h : j.Sound) {b : Block} {offset k : Nat} (hw : b.IsWord offset)
    (uncovered : ∀ p : Place, p.isParameter = true → ¬ p.Covers b offset k) :
    bit ((j.restore target).word b offset) k = bit (j.word b offset) k := by
  refine bit_putAll _ h hw fun store member => ?_
  obtain ⟨p, inside, rfl⟩ := List.mem_map.mp member
  exact uncovered p ((Place.mem_parameters p).mp inside)

theorem value_and_mask (p : Place) : i.value p &&& p.mask = i.value p :=
  Place.read_mask p _

theorem level_value_switch (l : Loop) (f : Feature) :
    level (i.value (.switch l f) != 0) = i.value (.switch l f) := by
  rw [value, Place.read_switch, level_ne_zero]

theorem relockPin_eq (l : Loop) :
    ∃ k : Fin 4, i.relockPin l = .input k ∧ UInt32.ofNat k = i.value (.number (.relockPin l)) := by
  have small : (i.value (.number (.relockPin l))).toNat < 4 := Place.toNat_read_lt _ _
  exact ⟨⟨_, small⟩, Pin.watched_eq small, UInt32.ofNat_toNat⟩

theorem contains_featureSet (l : Loop) (f : Feature) :
    (i.featureSet l).contains f = (i.value (.switch l f) != 0) := by
  rw [featureSet, FeatureSet.contains_ofList, Bool.eq_iff_iff, decide_eq_true_eq, List.mem_filter]
  exact and_iff_right f.mem_all

end Instrument

variable [Arithmetic ν]

/-! ## Captures -/

namespace Action

variable {i : Instrument ν}

omit [Arithmetic ν] in
theorem mapM_value {α β : Type} {f : α → Action ν β} {g : α → β}
    (hf : ∀ a, ((f a).perform i).value = (.ok (g a), i)) (as : List α) :
    ((as.mapM f).perform i).value = (.ok (as.map g), i) := by
  induction as with
  | nil => rfl
  | cons a rest ih =>
    rw [List.mapM_cons, perform_bind_value_of_ok (hf a), perform_bind_value_of_ok ih]
    rfl

end Action

open LockServo.Action in
theorem LoopParameters.capture_value {i : Instrument ν} (h : i.FullSize) (l : Loop) :
    ((LoopParameters.capture l).perform i).value = (.ok (i.loopParameters l), i) := by
  have derivative := congrArg Logged.value (perform_readNumber h (.derivative l) rfl)
  rw [capture, Action.proportional, Action.integral, Action.derivative, Action.relockLow,
    Action.relockHigh, Action.relockStep,
    perform_bind_value_of_ok (setpoint_value h l),
    perform_bind_value_of_ok (gain_value h _ (.proportional l) rfl),
    perform_bind_value_of_ok (gain_value h _ (.integral l) rfl),
    perform_bind_value_of_ok derivative, perform_bind_value_of_ok (features_value h l),
    perform_bind_value_of_ok (relockBound_value h (.relockLow l) rfl),
    perform_bind_value_of_ok (relockBound_value h (.relockHigh l) rfl),
    perform_bind_value_of_ok (gain_value h _ (.relockStep l) rfl),
    perform_bind_value_of_ok (relockPin_value h l)]
  rfl

open LockServo.Action in
theorem LimitParameters.capture_value {i : Instrument ν} (h : i.FullSize) (d : Channel) :
    ((LimitParameters.capture d).perform i).value = (.ok (i.limitParameters d), i) := by
  rw [capture, perform_bind_value_of_ok (limit_value h d .low),
    perform_bind_value_of_ok (limit_value h d .high)]
  rfl

open LockServo.Action in
theorem ParameterSet.capture_value {i : Instrument ν} (h : i.FullSize) :
    (ParameterSet.capture.perform i).value = (.ok i.parameters, i) := by
  rw [capture, perform_bind_value_of_ok (mapM_value (LoopParameters.capture_value h) Loop.all),
    perform_bind_value_of_ok (mapM_value (LimitParameters.capture_value h) Channel.all)]
  rfl

/-! ## Sets as runs of setters -/

def LoopParameters.setters (p : LoopParameters ν) : List (Setter ν) :=
  [.setpoint p.loop p.setpoint, .proportional p.loop p.proportional, .integral p.loop p.integral,
    .derivative p.loop p.derivative, .relockLow p.loop p.relockLow, .relockHigh p.loop p.relockHigh,
    .relockStep p.loop p.relockStep, .relockPin p.loop p.relockPin, .features p.loop p.features]

def LimitParameters.setters (p : LimitParameters ν) : List (Setter ν) :=
  [.limit p.channel .low p.low, .limit p.channel .high p.high]

def ParameterSet.setters (p : ParameterSet ν) : List (Setter ν) :=
  p.loops.flatMap LoopParameters.setters ++ p.limits.flatMap LimitParameters.setters

theorem LoopParameters.apply_eq (p : LoopParameters ν) :
    p.apply = p.setters.forM Setter.perform := by
  simp [apply, setters, Setter.perform]

theorem LimitParameters.apply_eq (p : LimitParameters ν) :
    p.apply = p.setters.forM Setter.perform := by
  simp [apply, setters, Setter.perform]

omit [Arithmetic ν] in
theorem Action.forM_flatMap {α β : Type} (as : List α) (g : α → List β) (f : β → Action ν Unit) :
    (as.flatMap g).forM f = as.forM fun a => (g a).forM f := by
  induction as with
  | nil => rfl
  | cons a rest ih =>
    rw [List.flatMap_cons, List.forM_eq_forM, List.forM_append, ← List.forM_eq_forM, ih]
    rfl

theorem ParameterSet.apply_eq (p : ParameterSet ν) :
    p.apply = (do
      p.setters.forM Setter.perform
      Action.ofReporting (report .parametersApplied)) := by
  have loops : LoopParameters.apply (ν := ν) = fun q => q.setters.forM Setter.perform :=
    funext LoopParameters.apply_eq
  have limits : LimitParameters.apply (ν := ν) = fun q => q.setters.forM Setter.perform :=
    funext LimitParameters.apply_eq
  rw [apply, setters, loops, limits, ← Action.forM_flatMap, ← Action.forM_flatMap,
    List.forM_eq_forM, List.forM_append, bind_assoc]

omit [Arithmetic ν] in
theorem Setter.stored_value {count : Conversion ν UInt32} {n : UInt32}
    (h : count.run.value = .ok n) (p : Place) (parameter : Parameter) :
    (stored p parameter count).run.value = .ok [(p, n)] := by
  rw [stored, ExceptT.run_bind, Logged.bind_value, h]
  rfl

/-- Setters that are all accepted under a calibration, which they keep, and what they store. -/
inductive Setter.Accepts (c : Calibration ν) : List (Setter ν) → List (Place × UInt32) → Prop where
  | nil : Accepts c [] []
  | cons {s : Setter ν} {rest : List (Setter ν)} {first later : List (Place × UInt32)}
      (keeps : s.calibrationAfter c = c) (accepted : (s.stores c).run.value = .ok first)
      (follow : Accepts c rest later) : Accepts c (s :: rest) (first ++ later)

namespace Setter.Accepts

variable {c : Calibration ν} {setters others : List (Setter ν)}
  {stores later : List (Place × UInt32)}

theorem single {s : Setter ν} (keeps : s.calibrationAfter c = c)
    (accepted : (s.stores c).run.value = .ok stores) : Accepts c [s] stores := by
  rw [← List.append_nil stores]
  exact .cons keeps accepted .nil

theorem number {s : Setter ν} {p : Place} {n : UInt32} (keeps : s.calibrationAfter c = c)
    (accepted : (s.stores c).run.value = .ok [(p, n)]) (follow : Accepts c others later) :
    Accepts c (s :: others) ((p, n) :: later) :=
  .cons keeps accepted follow

theorem append (h : Accepts c setters stores) (h' : Accepts c others later) :
    Accepts c (setters ++ others) (stores ++ later) := by
  induction h with
  | nil => exact h'
  | cons keeps accepted _ ih =>
    rw [List.cons_append, List.append_assoc]
    exact .cons keeps accepted ih

theorem flatMap {α : Type} {f : α → List (Setter ν)} {g : α → List (Place × UInt32)}
    (h : ∀ a, Accepts c (f a) (g a)) (as : List α) : Accepts c (as.flatMap f) (as.flatMap g) := by
  induction as with
  | nil => exact .nil
  | cons a rest ih => exact (h a).append ih

theorem forM_value {i : Instrument ν} (hc : i.calibration = c) (full : i.FullSize)
    (h : Accepts c setters stores) :
    ((setters.forM Setter.perform).perform i).value = (.ok (), i.putAll stores) := by
  induction h generalizing i with
  | nil => rfl
  | @cons s rest first later keeps accepted _ ih =>
    subst hc
    have step : (s.perform.perform i).value = (.ok (), i.putAll first) := by
      rw [s.perform_eq full, Logged.map_value, accepted, result, settle_eq_putAll keeps]
    rw [List.forM_eq_forM, List.forM_cons, Action.perform_bind_value_of_ok step,
      ← List.forM_eq_forM, ih (Instrument.putAll_calibration first i) (Instrument.putAll_fullSize first full),
      ← Instrument.putAll_append]

end Setter.Accepts

/-! ## Readings coded anew -/

/-- The count that a place is given when its reading under one calibration is written back under
another. Counts that no unit stands for come back as they are. -/
def Register.Place.recode (c c' : Calibration ν) : Place → UInt32 → Conversion ν UInt32
  | .number (.setpoint l) _, n =>
    Scale.unipolar.encode (c'.input.get l.input) (ofNat 0) ((Field.setpoint l).quantity c n)
  | .number (.proportional l) _, n =>
    Gain.encode .proportional (ofRat Gain.proportionalFactor) (Field.proportional l).mask
      ((Field.proportional l).quantity c n)
  | .number (.integral l) _, n =>
    Gain.encode .integral (ofRat Gain.integralFactor) (Field.integral l).mask
      ((Field.integral l).quantity c n)
  | .number (.relockLow l) _, n => Span.encodeInput ((Field.relockLow l).quantity c n)
  | .number (.relockHigh l) _, n => Span.encodeInput ((Field.relockHigh l).quantity c n)
  | .number (.relockStep l) _, n =>
    Gain.encode .relockStep (ofRat Gain.stepFactor) (Field.relockStep l).mask
      ((Field.relockStep l).quantity c n)
  | .number (.limit d b) _, n =>
    Scale.unipolar.encode (c'.output.get d) (ofNat 0) ((Field.limit d b).quantity c n)
  | .number (.slowOutput k) _, n => Span.encodeOutput ((Field.slowOutput k).quantity c n)
  | _, n => pure n

namespace Instrument

variable {i j : Instrument ν} {c : Calibration ν} {target : Place → UInt32}

theorem accepts_loopParameters
    (recoded : ∀ p : Place, p.isParameter = true →
      (p.recode i.calibration c (i.value p)).run.value = .ok (target p)) (l : Loop) :
    Setter.Accepts c (i.loopParameters l).setters
      ((Place.ofLoop l).map fun p => (p, target p)) := by
  have number : ∀ (f : Field) (hf : f.isAdjustable = true) (parameter : Parameter),
      (Place.number f hf).isParameter = true →
      (Setter.stored (.number f hf) parameter
        ((Place.number f hf).recode i.calibration c (i.value (.number f hf)))).run.value =
        .ok [(.number f hf, target (.number f hf))] :=
    fun f hf parameter holds => Setter.stored_value (recoded _ holds) _ parameter
  have pin : ((Setter.relockPin l (i.relockPin l)).stores c).run.value =
      .ok [(.number (.relockPin l), target (.number (.relockPin l)))] := by
    obtain ⟨k, watched, count⟩ := relockPin_eq (i := i) l
    have stored := number (.relockPin l) rfl .relockPin rfl
    rw [← count] at stored
    rw [watched]
    exact stored
  have features : ((Setter.features l (i.featureSet l)).stores c).run.value =
      .ok (Feature.all.map fun f => (.switch l f, target (.switch l f))) := by
    have levels : (fun f => (Place.switch l f, level ((i.featureSet l).contains f))) =
        fun f => (Place.switch l f, target (.switch l f)) := by
      funext f
      have kept : Except.ok (i.value (.switch l f)) = .ok (target (.switch l f)) :=
        recoded (.switch l f) rfl
      rw [contains_featureSet, level_value_switch, Except.ok.inj kept]
    rw [← levels]
    rfl
  exact .number rfl (number (.setpoint l) rfl _ rfl) <|
    .number rfl (number (.proportional l) rfl _ rfl) <|
    .number rfl (number (.integral l) rfl _ rfl) <|
    .number rfl (number (.derivative l) rfl _ rfl) <|
    .number rfl (number (.relockLow l) rfl _ rfl) <|
    .number rfl (number (.relockHigh l) rfl _ rfl) <|
    .number rfl (number (.relockStep l) rfl _ rfl) <|
    .number rfl pin <| .single rfl features

theorem accepts_limitParameters
    (recoded : ∀ p : Place, p.isParameter = true →
      (p.recode i.calibration c (i.value p)).run.value = .ok (target p)) (d : Channel) :
    Setter.Accepts c (i.limitParameters d).setters
      ((Place.ofOutput d).map fun p => (p, target p)) :=
  .number rfl (Setter.stored_value (recoded (.number (.limit d .low)) rfl) _ .limit) <|
    .single rfl (Setter.stored_value (recoded (.number (.limit d .high)) rfl) _ .limit)

/-- When every reading is accepted, applying a capture gives each parameter place its count, coded
anew, and does nothing else. -/
theorem apply_parameters (full : j.FullSize)
    (recoded : ∀ p : Place, p.isParameter = true →
      (p.recode i.calibration j.calibration (i.value p)).run.value = .ok (target p)) :
    (i.parameters.apply.perform j).value = (.ok (), j.restore target) := by
  have stores : Setter.Accepts j.calibration i.parameters.setters
      (Place.parameters.map fun p => (p, target p)) := by
    rw [Place.parameters, List.map_append, List.map_flatMap, List.map_flatMap, ParameterSet.setters,
      parameters, List.flatMap_map, List.flatMap_map]
    exact (Setter.Accepts.flatMap (accepts_loopParameters recoded) _).append
      (Setter.Accepts.flatMap (accepts_limitParameters recoded) _)
  rw [ParameterSet.apply_eq, Action.perform_bind_value_of_ok (stores.forM_value rfl full)]
  rfl

end Instrument

end LockServo

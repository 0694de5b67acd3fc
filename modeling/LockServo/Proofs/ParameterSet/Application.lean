import Mathlib.Data.List.TakeWhile
import LockServo.Proofs.Instrument.Writers

/-!
# Applying a parameter set

A set is accepted as a whole exactly when each of its values is, whatever the instrument. Entries may
come in any order, repeat a loop or an output, or leave one out: the last entry that names a loop or an
output decides. A refused value ends the application where it stands.
-/

namespace LockServo

open Arithmetic Register

variable {ν : Type}

/-! ## Last entries -/

theorem LoopParameters.block_of_target (q : LoopParameters ν) :
    ∀ s ∈ q.setters, ∀ p ∈ s.targets, p.field.block = .pid := by
  simp [LoopParameters.setters, Setter.targets, Place.field, Field.block]

theorem LimitParameters.block_of_target (q : LimitParameters ν) :
    ∀ s ∈ q.setters, ∀ p ∈ s.targets, p.field.block = .limit := by
  simp [LimitParameters.setters, Setter.targets, Place.field, Field.block]

namespace Setter

variable {α : Type} {p : Place} {setters : α → List (Setter ν)}

theorem writer?_append (first later : List (Setter ν)) :
    writer? (first ++ later) p = (writer? later p).or (writer? first p) := by
  rw [writer?, List.reverse_append, List.find?_append]
  rfl

theorem writer?_flatMap {named : α → Prop} [DecidablePred named] {g : α → Setter ν}
    (own : ∀ a, writer? (setters a) p = if named a then some (g a) else none) (as : List α) :
    writer? (as.flatMap setters) p = (as.reverse.find? named).map g := by
  rw [writer?, List.reverse_flatMap, List.find?_flatMap, List.find?_eq_findSome?_guard, List.map_findSome?]
  refine congrArg (List.findSome? · _) (funext fun a => (own a).trans ?_)
  by_cases h : named a <;> simp [h]

theorem writer?_flatMap_eq_none (others : ∀ a, writer? (setters a) p = none) (as : List α) :
    writer? (as.flatMap setters) p = none := by
  rw [writer?, List.reverse_flatMap, List.find?_flatMap, List.findSome?_eq_none_iff]
  exact fun a _ => others a

end Setter

namespace ParameterSet

variable (set : ParameterSet ν)

def lastLoop? (l : Loop) : Option (LoopParameters ν) := set.loops.reverse.find? (·.loop = l)

def lastLimits? (d : Channel) : Option (LimitParameters ν) := set.limits.reverse.find? (·.channel = d)

/-- The setter that decides a place: the one for the last entry that names its loop or output. -/
def lastSetter? : Place → Option (Setter ν)
  | .number (.setpoint l) _ => (set.lastLoop? l).map fun q => .setpoint l q.setpoint
  | .number (.proportional l) _ => (set.lastLoop? l).map fun q => .proportional l q.proportional
  | .number (.integral l) _ => (set.lastLoop? l).map fun q => .integral l q.integral
  | .number (.derivative l) _ => (set.lastLoop? l).map fun q => .derivative l q.derivative
  | .number (.relockLow l) _ => (set.lastLoop? l).map fun q => .relockLow l q.relockLow
  | .number (.relockHigh l) _ => (set.lastLoop? l).map fun q => .relockHigh l q.relockHigh
  | .number (.relockStep l) _ => (set.lastLoop? l).map fun q => .relockStep l q.relockStep
  | .number (.relockPin l) _ => (set.lastLoop? l).map fun q => .relockPin l q.relockPin
  | .number (.limit d .low) _ => (set.lastLimits? d).map fun q => .limit d .low q.low
  | .number (.limit d .high) _ => (set.lastLimits? d).map fun q => .limit d .high q.high
  | .number (.slowOutput _) _ => none
  | .switch l _ => (set.lastLoop? l).map fun q => .features l q.features

variable {set} {p : Place}

theorem writer?_of_loop {l : Loop} {g : LoopParameters ν → Setter ν}
    (loops : ∀ q : LoopParameters ν,
      Setter.writer? q.setters p = if q.loop = l then some (g q) else none)
    (limits : ∀ q : LimitParameters ν, Setter.writer? q.setters p = none) :
    Setter.writer? set.setters p = (set.lastLoop? l).map g := by
  rw [setters, Setter.writer?_append, Setter.writer?_flatMap_eq_none limits, Setter.writer?_flatMap loops,
    Option.none_or, lastLoop?]

theorem writer?_of_limit {d : Channel} {g : LimitParameters ν → Setter ν}
    (limits : ∀ q : LimitParameters ν,
      Setter.writer? q.setters p = if q.channel = d then some (g q) else none)
    (loops : ∀ q : LoopParameters ν, Setter.writer? q.setters p = none) :
    Setter.writer? set.setters p = (set.lastLimits? d).map g := by
  rw [setters, Setter.writer?_append, Setter.writer?_flatMap_eq_none loops, Setter.writer?_flatMap limits,
    Option.or_none, lastLimits?]

/-- Among all setters of a set, the last one for a place is that of the last entry for it. -/
theorem writer?_setters (set : ParameterSet ν) (p : Place) :
    Setter.writer? set.setters p = set.lastSetter? p := by
  cases p with
  | switch l f =>
    refine writer?_of_loop (fun q => ?_) fun q =>
      Setter.writer?_of_block_ne q.block_of_target Block.noConfusion
    by_cases h : l = q.loop
    · simp [Setter.writer?, LoopParameters.setters, Setter.mem_targets, h]
    · simp [Setter.writer?, LoopParameters.setters, Setter.mem_targets, Place.field, h, Ne.symm h]
  | number f adjustable =>
    cases f with
    | features | slowInput | fastInput | fastOutput => cases adjustable
    | slowOutput k =>
      refine List.find?_eq_none.mpr fun s member target => ?_
      rcases List.mem_append.mp (List.mem_reverse.mp member) with loop | limit
      · obtain ⟨q, -, inside⟩ := List.mem_flatMap.mp loop
        cases LoopParameters.block_of_target q s inside _ (of_decide_eq_true target)
      · obtain ⟨q, -, inside⟩ := List.mem_flatMap.mp limit
        cases LimitParameters.block_of_target q s inside _ (of_decide_eq_true target)
    | limit d b =>
      cases b with
      | _ =>
        refine writer?_of_limit (fun q => ?_) fun q =>
          Setter.writer?_of_block_ne q.block_of_target Block.noConfusion
        by_cases h : d = q.channel
        · simp [Setter.writer?, LimitParameters.setters, Setter.mem_targets, Place.field, h]
        · simp [Setter.writer?, LimitParameters.setters, Setter.mem_targets, Place.field, h, Ne.symm h]
    | _ l =>
      refine writer?_of_loop (fun q => ?_) fun q =>
        Setter.writer?_of_block_ne q.block_of_target Block.noConfusion
      by_cases h : l = q.loop
      · simp [Setter.writer?, LoopParameters.setters, Setter.mem_targets, Place.field, h]
      · simp [Setter.writer?, LoopParameters.setters, Setter.mem_targets, Place.field, h, Ne.symm h]

end ParameterSet

variable [Arithmetic ν]

/-! ## Acceptable values -/

/-- Neither a NaN nor below zero. -/
def Arithmetic.NotBelowZero (v : ν) : Prop := isNaN v = false ∧ less v (ofNat 0) = false

theorem Setter.unsigned_eq_none_iff {quantity : Quantity} {v : ν} :
    refusal?.unsigned quantity v = none ↔ NotBelowZero v := by
  rw [refusal?.unsigned, NotBelowZero, ← Bool.or_eq_false_iff]
  cases isNaN v || less v (ofNat 0) <;> simp

structure LoopParameters.Acceptable (q : LoopParameters ν) : Prop where
  setpoint : NotBelowZero q.setpoint
  proportional : NotBelowZero q.proportional
  integral : NotBelowZero q.integral
  relockLow : isNaN q.relockLow = false
  relockHigh : isNaN q.relockHigh = false
  relockStep : NotBelowZero q.relockStep
  relockPin : q.relockPin.isInput = true

structure LimitParameters.Acceptable (q : LimitParameters ν) : Prop where
  low : NotBelowZero q.low
  high : NotBelowZero q.high

structure ParameterSet.Acceptable (set : ParameterSet ν) : Prop where
  loops : ∀ q ∈ set.loops, q.Acceptable
  limits : ∀ q ∈ set.limits, q.Acceptable

theorem LoopParameters.acceptable_iff (q : LoopParameters ν) :
    (∀ s ∈ q.setters, s.refusal? = none) ↔ q.Acceptable := by
  have pin : (Setter.relockPin q.loop q.relockPin : Setter ν).refusal? = none ↔
      q.relockPin.isInput = true := by
    cases q.relockPin <;> simp [Setter.refusal?, Pin.isInput]
  simp only [setters, List.forall_mem_cons, List.not_mem_nil, false_imp_iff, implies_true, pin]
  simp only [Setter.refusal?, Setter.unsigned_eq_none_iff, true_and, and_true, ite_eq_right_iff,
    reduceCtorEq, imp_false, Bool.not_eq_true]
  constructor
  · rintro ⟨setpoint, proportional, integral, low, high, step, pin⟩
    exact ⟨setpoint, proportional, integral, low, high, step, pin⟩
  · rintro ⟨setpoint, proportional, integral, low, high, step, pin⟩
    exact ⟨setpoint, proportional, integral, low, high, step, pin⟩

theorem LimitParameters.acceptable_iff (q : LimitParameters ν) :
    (∀ s ∈ q.setters, s.refusal? = none) ↔ q.Acceptable := by
  simp only [setters, List.forall_mem_cons, List.not_mem_nil, false_imp_iff, implies_true, and_true,
    Setter.refusal?, Setter.unsigned_eq_none_iff]
  exact ⟨fun both => ⟨both.1, both.2⟩, fun acceptable => ⟨acceptable.low, acceptable.high⟩⟩

namespace ParameterSet

/-- The first refusal, loops before limits and each entry in the order of its setters. -/
def refusal? (set : ParameterSet ν) : Option (Fault ν) := set.setters.findSome? Setter.refusal?

def accepted (set : ParameterSet ν) : List (Setter ν) :=
  set.setters.takeWhile fun s => s.refusal?.isNone

theorem refusal?_eq_none_iff (set : ParameterSet ν) : set.refusal? = none ↔ set.Acceptable := by
  rw [refusal?, List.findSome?_eq_none_iff]
  simp only [setters, List.forall_mem_append, List.forall_mem_flatMap, LoopParameters.acceptable_iff,
    LimitParameters.acceptable_iff]
  exact ⟨fun both => ⟨both.1, both.2⟩, fun acceptable => ⟨acceptable.loops, acceptable.limits⟩⟩

omit [Arithmetic ν] in
theorem calibrationAfter_setters (set : ParameterSet ν) (c : Calibration ν) :
    ∀ s ∈ set.setters, s.calibrationAfter c = c := by
  simp only [setters, List.forall_mem_append, List.forall_mem_flatMap, LoopParameters.setters,
    LimitParameters.setters, List.forall_mem_cons, List.not_mem_nil, false_imp_iff, implies_true,
    Setter.calibrationAfter, and_self]

theorem refusal?_of_mem_accepted {set : ParameterSet ν} {s : Setter ν} (member : s ∈ set.accepted) :
    s.refusal? = none := by
  have passes : s.refusal?.isNone = true :=
    List.mem_takeWhile_imp (p := fun t : Setter ν => t.refusal?.isNone) member
  exact Option.isNone_iff_eq_none.mp passes

theorem accepted_of_refusal?_eq_none {set : ParameterSet ν} (h : set.refusal? = none) :
    set.accepted = set.setters := by
  rw [accepted, List.takeWhile_eq_self_iff]
  intro s member
  rw [List.findSome?_eq_none_iff.mp h s member]
  rfl

theorem setters_of_refusal? {set : ParameterSet ν} {fault : Fault ν} (h : set.refusal? = some fault) :
    ∃ (s : Setter ν) (later : List (Setter ν)),
      set.setters = set.accepted ++ s :: later ∧ s.refusal? = some fault := by
  obtain ⟨before, s, later, split, refused, sound⟩ := List.findSome?_eq_some_iff.mp h
  have stops : set.accepted = before := by
    have passes : ∀ t ∈ before, t.refusal?.isNone = true := by
      intro t member
      rw [sound t member]
      rfl
    rw [accepted, split, List.takeWhile_append_of_pos passes,
      List.takeWhile_cons_of_neg (by simp [refused]), List.append_nil]
  exact ⟨s, later, stops ▸ split, refused⟩

/-- An application in full, or up to the first refused value. -/
theorem apply_value {i : Instrument ν} (full : i.FullSize) (set : ParameterSet ν) :
    (set.apply.perform i).value =
      (match set.refusal? with
        | some fault => .error fault
        | none => .ok (),
      i.putAll (set.accepted.flatMap (Setter.counts i.calibration))) := by
  have stores : Setter.Accepts i.calibration set.accepted
      (set.accepted.flatMap (Setter.counts i.calibration)) :=
    Setter.accepts_of_forall
      (fun s member => set.calibrationAfter_setters _ s ((List.takeWhile_sublist _).mem member))
      fun s member => refusal?_of_mem_accepted member
  rw [apply_eq]
  cases verdict : set.refusal? with
  | none =>
    rw [accepted_of_refusal?_eq_none verdict] at stores ⊢
    rw [Action.perform_bind_value_of_ok (stores.forM_value rfl full)]
    rfl
  | some fault =>
    obtain ⟨s, later, split, refused⟩ := setters_of_refusal? verdict
    rw [split]
    exact Action.perform_bind_value_of_error (Setter.forM_value_of_refused full stores refused) _

end ParameterSet

/-- The values alone decide whether a set is applied in full, and which of them is the fault otherwise.
Every setter before that value has stored its count, and nothing else has changed. -/
theorem apply_stops_at_first_refusal {i : Instrument ν} (h : i.Sound) (set : ParameterSet ν) :
    ∃ after : Instrument ν,
      (set.apply.perform i).value =
        (match set.refusal? with
          | some fault => .error fault
          | none => .ok (),
        after) ∧
      (set.refusal? = none ↔ set.Acceptable) ∧
      (set.Acceptable → i.StoredBy after set.lastSetter?) ∧
      i.StoredBy after (Setter.writer? set.accepted) := by
  have accepted : ∀ s ∈ set.accepted, s.refusal? = none := fun _ member =>
    ParameterSet.refusal?_of_mem_accepted member
  have stored := Instrument.storedBy_putAll h accepted
  refine ⟨_, set.apply_value h.fullSize, set.refusal?_eq_none_iff, fun acceptable => ?_, stored⟩
  have whole := ParameterSet.accepted_of_refusal?_eq_none (set.refusal?_eq_none_iff.mpr acceptable)
  rw [whole] at stored ⊢
  rwa [← funext set.writer?_setters]

/-- The second entry for a loop wins, and a NaN in the upper limit stops after the lower one. -/
theorem apply_stops_at_first_refusal_within_an_entry :
    let l : Loop := ⟨.two, .one⟩
    let first : LoopParameters Binary64 :=
      ⟨l, .ofRat (1 / 2), .ofRat 1, .ofRat 0, 7, ⟨0xE2⟩, .ofRat (-1), .ofRat 3, .ofRat 0, .input 2⟩
    let second := { first with proportional := .ofRat 2, derivative := 9 }
    let set : ParameterSet Binary64 :=
      ⟨[first, second], [⟨.two, .ofRat (1 / 2), .nan false⟩, ⟨.one, .ofRat 1, .ofRat 1⟩]⟩
    let i : Instrument Binary64 := .blank .ideal
    i.Sound ∧ ∃ after : Instrument Binary64,
      (set.apply.perform i).value = (.error (.invalid .voltage (.nan false)), after) ∧
      after.value (.number (.proportional l)) = 8192 ∧ after.value (.number (.derivative l)) = 9 ∧
      after.value (.number (.limit .two .low)) = 8192 ∧
      after.value (.number (.limit .one .high)) = 0 := by
  intro l first second set i
  have sound : i.Sound := Instrument.blank_sound _
  obtain ⟨after, applied, -, -, stored⟩ := apply_stops_at_first_refusal sound set
  have refused : set.refusal? = some (.invalid .voltage (.nan false)) := by decide +kernel
  rw [refused] at applied
  refine ⟨sound, after, applied, ?_, ?_, ?_, ?_⟩
  · exact (stored.places _).trans (by decide +kernel)
  · exact (stored.places _).trans (by decide +kernel)
  · exact (stored.places _).trans (by decide +kernel)
  · exact (stored.places _).trans (by decide +kernel)

end LockServo

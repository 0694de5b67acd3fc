import Mathlib.Tactic.IntervalCases
import LockServo.Proofs.Binary64.Sign
import LockServo.Proofs.Conversion.Values
import LockServo.Proofs.Instrument.LastWriter
import LockServo.Proofs.Instrument.Queries

/-!
# Refused calls

Whether a setter refuses its arguments, and why, as a function of the arguments alone; and what an
accepted one stores, place by place. On full-size blocks a setter does just that: no register and no
calibration has a say in the verdict, and a refused call leaves everything as it was.
-/

namespace LockServo

open Arithmetic Register

variable {ν : Type}

theorem Pin.ofCode_of_le {n : Nat} (h : 8 ≤ n) : Pin.ofCode n = .error ⟨.pin, n⟩ := by
  have beyond : ofCode? n = none := List.getElem?_eq_none h
  rw [ofCode, beyond]

/-! ## Verdicts and counts -/

namespace Setter

variable [Arithmetic ν]

/-- Why a setter refuses its arguments. -/
def refusal? : Setter ν → Option (Fault ν)
  | .setpoint _ v | .limit _ _ v => unsigned .voltage v
  | .proportional _ v => unsigned .proportional v
  | .integral _ v => unsigned .integral v
  | .relockStep _ v => unsigned .relockStep v
  | .relockLow _ v | .relockHigh _ v =>
    if isNaN v then some (.invalid .absoluteVoltage v) else none
  | .relockPin _ (.output k) => some (.outOfRange ⟨.relockPin, k⟩)
  | .relockCode _ n =>
    if n < 4 then some (.outOfRange ⟨.relockPin, n⟩)
    else if n < 8 then none
    else some (.outOfRange ⟨.pin, n⟩)
  | .pinValue (.input k) _ => some (.outOfRange ⟨.outputPin, 4 + k⟩)
  | .pinValue (.output _) v => unsigned .analogOutput v
  | .relockPin _ (.input _) | .derivative .. | .feature .. | .features .. | .resetPins | .reload _ => none
where
  unsigned (quantity : Quantity) (v : ν) : Option (Fault ν) :=
    if isNaN v || less v (ofNat 0) then some (.invalid quantity v) else none

theorem refusal?_relockCode_of_le (l : Loop) {n : Nat} (h : 8 ≤ n) :
    (relockCode l n : Setter ν).refusal? = some (.outOfRange ⟨.pin, n⟩) := by
  rw [refusal?, if_neg (by omega), if_neg (by omega)]

/-- The places that a setter stores into when it accepts. -/
def targets : Setter ν → List Place
  | .setpoint l _ => [.number (.setpoint l)]
  | .proportional l _ => [.number (.proportional l)]
  | .integral l _ => [.number (.integral l)]
  | .derivative l _ => [.number (.derivative l)]
  | .feature l f _ => [.switch l f]
  | .features l _ => Feature.all.map (.switch l)
  | .relockLow l _ => [.number (.relockLow l)]
  | .relockHigh l _ => [.number (.relockHigh l)]
  | .relockStep l _ => [.number (.relockStep l)]
  | .relockPin l _ | .relockCode l _ => [.number (.relockPin l)]
  | .limit d b _ => [.number (.limit d b)]
  | .pinValue p _ => [.number (.slowOutput p.index)]
  | .resetPins => (List.finRange 4).map fun k => .number (.slowOutput k)
  | .reload _ => []

omit [Arithmetic ν] in
theorem mem_targets (s : Setter ν) (p : Place) : p ∈ s.targets ↔
    match s with
    | .setpoint l _ => p.field = .setpoint l
    | .proportional l _ => p.field = .proportional l
    | .integral l _ => p.field = .integral l
    | .derivative l _ => p.field = .derivative l
    | .feature l f _ => p = .switch l f
    | .features l _ => ∃ f, p = .switch l f
    | .relockLow l _ => p.field = .relockLow l
    | .relockHigh l _ => p.field = .relockHigh l
    | .relockStep l _ => p.field = .relockStep l
    | .relockPin l _ | .relockCode l _ => p.field = .relockPin l
    | .limit d b _ => p.field = .limit d b
    | .pinValue q _ => p.field = .slowOutput q.index
    | .resetPins => ∃ k, p.field = .slowOutput k
    | .reload _ => False := by
  cases s with
  | feature l f on => exact List.mem_singleton
  | features l t =>
    simp only [targets, List.mem_map, Feature.mem_all, true_and]
    exact exists_congr fun f => eq_comm
  | resetPins =>
    simp only [targets, List.mem_map, List.mem_finRange, true_and]
    exact exists_congr fun k => eq_comm.trans (Place.eq_number_iff _)
  | reload => exact List.mem_nil_iff p
  | _ => exact List.mem_singleton.trans (Place.eq_number_iff _)

def count (c : Calibration ν) : Setter ν → Place → UInt32
  | .setpoint l v, _ => Scale.unipolar.code (c.input.get l.input) (ofNat 0) v
  | .proportional l v, _ => Gain.code (ofRat Gain.proportionalFactor) (Field.proportional l).mask v
  | .integral l v, _ => Gain.code (ofRat Gain.integralFactor) (Field.integral l).mask v
  | .relockStep l v, _ => Gain.code (ofRat Gain.stepFactor) (Field.relockStep l).mask v
  | .derivative _ n, _ => n
  | .feature _ _ on, _ => level on
  | .features _ s, .switch _ f => level (s.contains f)
  | .relockLow _ v, _ | .relockHigh _ v, _ => Span.inputCode v
  | .relockPin _ p, _ => UInt32.ofNat p.index
  | .relockCode _ n, _ => UInt32.ofNat (n - 4)
  | .limit d _ v, _ => Scale.unipolar.code (c.output.get d) (ofNat 0) v
  | .pinValue _ v, _ => Span.outputCode v
  | .features .., .number .. | .resetPins, _ | .reload _, _ => 0

def counts (c : Calibration ν) (s : Setter ν) : List (Place × UInt32) :=
  s.targets.map fun p => (p, s.count c p)

def verdict (c : Calibration ν) (s : Setter ν) : Except (Fault ν) (List (Place × UInt32)) :=
  match s.refusal? with
  | some fault => .error fault
  | none => .ok (s.counts c)

omit [Arithmetic ν] in
theorem stored_run_value (p : Place) (parameter : Parameter) (count : Conversion ν UInt32) :
    (stored p parameter count).run.value = count.run.value.map fun n => [(p, n)] := by
  rw [stored, ExceptT.run_bind, Logged.bind_value]
  cases count.run.value <;> rfl

theorem stores_value (c : Calibration ν) (s : Setter ν) : (s.stores c).run.value = s.verdict c := by
  have converted : ∀ {refused : Bool} {fault : Fault ν} {p : Place} {n : UInt32}
      {parameter : Parameter} {count : Conversion ν UInt32},
      count.run.value = (if refused then .error fault else .ok n) →
      (stored p parameter count).run.value =
        match (if refused then some fault else none) with
        | some fault => .error fault
        | none => .ok [(p, n)] := by
    intro refused fault p n parameter count h
    rw [stored_run_value, h]
    cases refused <;> rfl
  cases s with
  | setpoint l v => exact converted (Scale.unipolar_encode_value _ _ v)
  | proportional l v => exact converted (Gain.encode_value _ _ _ v)
  | integral l v => exact converted (Gain.encode_value _ _ _ v)
  | relockStep l v => exact converted (Gain.encode_value _ _ _ v)
  | relockLow l v => exact converted (Span.encodeInput_value v)
  | relockHigh l v => exact converted (Span.encodeInput_value v)
  | limit d b v => exact converted (Scale.unipolar_encode_value _ _ v)
  | pinValue p v =>
    cases p with
    | input k => rfl
    | output k => exact converted (Span.encodeOutput_value v)
  | relockPin l p => cases p <;> rfl
  | relockCode l n =>
    rcases Nat.lt_or_ge n 8 with known | beyond
    · interval_cases n <;> rfl
    · rw [verdict, refusal?_relockCode_of_le l beyond, stores, Pin.ofCode_of_le beyond]
      rfl
  | derivative | feature | features | resetPins | reload => rfl

variable {s : Setter ν} {i : Instrument ν}

theorem perform_of_refused (h : i.FullSize) {fault : Fault ν} (refused : s.refusal? = some fault) :
    (s.perform.perform i).value = (.error fault, i) := by
  rw [s.perform_eq h, Logged.map_value, stores_value, verdict, refused]
  rfl

theorem perform_of_accepted (h : i.FullSize) (accepted : s.refusal? = none) :
    (s.perform.perform i).value = (.ok (), s.settle i (s.counts i.calibration)) := by
  rw [s.perform_eq h, Logged.map_value, stores_value, verdict, accepted]
  rfl

end Setter

/-- The arguments alone decide whether a setter refuses; a refused call leaves the instrument as it was,
and no query is ever refused. -/
theorem refusals_are_atomic {i : Instrument Binary64} (h : i.FullSize) :
    (∀ (s : Setter Binary64) (fault : Fault Binary64), s.refusal? = some fault →
      (s.perform.perform i).value = (.error fault, i)) ∧
    (∀ s : Setter Binary64, s.refusal? = none →
      ∃ after : Instrument Binary64, (s.perform.perform i).value = (.ok (), after)) ∧
    (∀ x : Binary64, (isNaN x || less x (ofNat 0)) = false ↔ x.Unsigned ∨ x = .zero true) ∧
    ∀ q : Query, ∃ answer : Answer Binary64, (q.perform.perform i).value = (.ok answer, i) := by
  refine ⟨?_, ?_, Binary64.not_refused_iff, ?_⟩
  · intro s fault refused
    exact Setter.perform_of_refused h refused
  · intro s accepted
    exact ⟨_, Setter.perform_of_accepted h accepted⟩
  · intro q
    exact ⟨q.answer i, q.perform_value h⟩

/-- A relock bound refuses a NaN only, a setpoint takes the zero below zero and the infinity, and a code
past the pins is no pin. -/
theorem refusals_are_atomic_at_the_edges :
    let i : Instrument Binary64 := .blank .ideal
    let l : Loop := ⟨.two, .one⟩
    i.FullSize ∧
      ((Setter.relockHigh l (.nan true)).perform.perform i).value =
        (.error (.invalid .absoluteVoltage (.nan true)), i) ∧
      (∃ after, ((Setter.setpoint l (Binary64.zero true)).perform.perform i).value = (.ok (), after)) ∧
      (∃ after, ((Setter.setpoint l (.infinite false)).perform.perform i).value = (.ok (), after)) ∧
      ((Setter.relockCode l 8 : Setter Binary64).perform.perform i).value =
        (.error (.outOfRange ⟨.pin, 8⟩), i) := by
  intro i l
  have full : i.FullSize := Instrument.blank_fullSize _
  obtain ⟨refused, accepted, signs, -⟩ := refusals_are_atomic full
  have sound : ∀ x : Binary64, x.Unsigned ∨ x = Binary64.zero true →
      (Setter.setpoint l x).refusal? = none := by
    intro x hx
    exact if_neg (Bool.eq_false_iff.mp ((signs x).mpr hx))
  exact ⟨full, refused _ _ rfl, accepted _ (sound _ (.inr rfl)), accepted _ (sound _ (.inl .infinite)),
    refused _ _ rfl⟩

end LockServo

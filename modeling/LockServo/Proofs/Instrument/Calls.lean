import LockServo.Proofs.ParameterSet.Application

/-!
# Runs of calls

Any calls in any order: stores, queries, whole parameter sets and reloads. A call is the counts that it
stores, the calibration that it leaves and its answer, and a refused one has stored what came before the
refusal. What single stores and reloads keep is kept by whole runs.
-/

namespace LockServo

open Register

variable {ν : Type} [Arithmetic ν]

namespace Call

def stores (c : Calibration ν) : Call ν → List (Place × UInt32)
  | .store s => if s.refusal?.isSome then [] else s.counts c
  | .apply set => set.accepted.flatMap (Setter.counts c)
  | .ask _ | .exchange _ => []

omit [Arithmetic ν] in
def calibrationAfter (c : Calibration ν) : Call ν → Calibration ν
  | .store s => s.calibrationAfter c
  | .exchange record => record
  | .ask _ | .apply _ => c

def outcome (i : Instrument ν) : Call ν → Except (Fault ν) (Answer ν)
  | .store s => s.refusal?.elim (.ok .done) .error
  | .ask q => .ok (q.answer i)
  | .apply set => set.refusal?.elim (.ok .done) .error
  | .exchange _ => .ok (.calibration i.calibration)

def after (call : Call ν) (i : Instrument ν) : Instrument ν :=
  { i.putAll (call.stores i.calibration) with calibration := call.calibrationAfter i.calibration }

variable {i : Instrument ν}

omit [Arithmetic ν] in
theorem putAll_keeping_calibration (i : Instrument ν) (stores : List (Place × UInt32)) :
    { i.putAll stores with calibration := i.calibration } = i.putAll stores := by
  rw [← Instrument.putAll_calibration stores i]

theorem store_value (h : i.FullSize) (s : Setter ν) :
    ((store s).perform.perform i).value = ((store s).outcome i, (store s).after i) := by
  cases verdict : s.refusal? with
  | none =>
    rw [perform, Action.perform_bind_value_of_ok (Setter.perform_of_accepted h verdict)]
    simp only [outcome, after, stores, verdict]
    rfl
  | some fault =>
    have failed : (s.stores i.calibration).run.value = .error fault := by
      rw [Setter.stores_value, Setter.verdict, verdict]
    have kept := Setter.calibrationAfter_of_error failed
    rw [perform, Action.perform_bind_value_of_error (Setter.perform_of_refused h verdict)]
    simp only [outcome, after, stores, verdict, calibrationAfter, kept]
    rfl

theorem apply_value (h : i.FullSize) (set : ParameterSet ν) :
    ((apply set).perform.perform i).value = ((apply set).outcome i, (apply set).after i) := by
  have applied := set.apply_value h
  have settled : (apply set).after i = i.putAll (set.accepted.flatMap (Setter.counts i.calibration)) :=
    putAll_keeping_calibration i _
  rw [settled, outcome]
  cases verdict : set.refusal? with
  | none =>
    rw [verdict] at applied
    rw [perform, Action.perform_bind_value_of_ok applied]
    rfl
  | some fault =>
    rw [verdict] at applied
    exact Action.perform_bind_value_of_error applied _

/-- On full-size blocks a call does just this, whether it succeeds or not. -/
theorem perform_value (h : i.FullSize) (call : Call ν) :
    (call.perform.perform i).value = (call.outcome i, call.after i) := by
  cases call with
  | store s => exact store_value h s
  | ask q => exact q.perform_value h
  | apply set => exact apply_value h set
  | exchange record => rfl

/-! ## Runs -/

def afterAll (calls : List (Call ν)) (i : Instrument ν) : Instrument ν :=
  calls.foldl (fun j call => call.after j) i

def outcomes : List (Call ν) → Instrument ν → List (Except (Fault ν) (Answer ν))
  | [], _ => []
  | call :: rest, i => call.outcome i :: outcomes rest (call.after i)

theorem after_fullSize (call : Call ν) (h : i.FullSize) : (call.after i).FullSize :=
  Instrument.fullSize_recalibrate (Instrument.putAll_fullSize _ h) _

theorem run_value (calls : List (Call ν)) (h : i.FullSize) :
    (run calls i).value = (outcomes calls i, afterAll calls i) := by
  induction calls generalizing i with
  | nil => rfl
  | cons call rest ih =>
    rw [run, Logged.bind_value, perform_value h]
    simp only [Logged.bind_value, Logged.pure_value, ih (after_fullSize call h)]
    rfl

end Call

end LockServo

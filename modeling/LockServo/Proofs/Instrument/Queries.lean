import LockServo.Proofs.ParameterSet.Restore

/-!
# Answers of queries

Every query of an instrument as a function of its words and its calibration. On full-size blocks a
query gives that answer whatever the words are, and leaves the instrument as it is.
-/

namespace LockServo

open Arithmetic Register

variable {ν : Type} [Arithmetic ν]

namespace Instrument

def count (i : Instrument ν) (f : Field) : UInt32 := getField (i.word f.block f.offset) f.mask f.shift

def reading (i : Instrument ν) (f : Field) : ν := f.quantity i.calibration (i.count f)

end Instrument

namespace Query

def answer (i : Instrument ν) : Query → Answer ν
  | .setpoint l => .quantity (i.reading (.setpoint l))
  | .proportional l => .quantity (i.reading (.proportional l))
  | .integral l => .quantity (i.reading (.integral l))
  | .derivative l => .word (i.count (.derivative l))
  | .feature l f => .switch (i.value (.switch l f) != 0)
  | .features l => .features (i.featureSet l)
  | .featureWord => .word (i.count .features)
  | .relockLow l => .quantity (i.reading (.relockLow l))
  | .relockHigh l => .quantity (i.reading (.relockHigh l))
  | .relockStep l => .quantity (i.reading (.relockStep l))
  | .relockPin l => .pin (i.relockPin l)
  | .limit d b => .quantity (i.reading (.limit d b))
  | .pinValue (.input k) => .quantity (i.reading (.slowInput k))
  | .pinValue (.output k) => .quantity (i.reading (.slowOutput k))
  | .inputVoltage d => .quantity (i.reading (.fastInput d))
  | .outputVoltage d => .quantity (i.reading (.fastOutput d))
  | .calibration => .calibration i.calibration
  | .capture => .parameters i.parameters

variable {i : Instrument ν}

theorem inputVoltage_value (h : i.FullSize) (d : Channel) :
    ((Action.inputVoltage d).perform i).value = (.ok (i.reading (.fastInput d)), i) := by
  rw [Action.inputVoltage, Action.perform_bind_of_ok (Action.perform_readField h (.fastInput d))]
  rfl

theorem outputVoltage_value (h : i.FullSize) (d : Channel) :
    ((Action.outputVoltage d).perform i).value = (.ok (i.reading (.fastOutput d)), i) := by
  rw [Action.outputVoltage, Action.perform_bind_of_ok (Action.perform_readField h (.fastOutput d))]
  rfl

theorem slowInput_value (h : i.FullSize) (k : Fin 4) :
    ((Action.pinValue (.input k)).perform i).value = (.ok (i.reading (.slowInput k)), i) := by
  rw [Action.pinValue, Action.perform_bind_of_ok (Action.perform_readField h (.slowInput k))]
  rfl

omit [Arithmetic ν] in
theorem featureWord_value (h : i.FullSize) :
    (Action.featureWord.perform i).value = (.ok (i.count .features), i) := by
  rw [Action.featureWord, Action.perform_readField h .features]
  rfl

theorem perform_value (h : i.FullSize) (q : Query) :
    (q.perform.perform i).value = (.ok (q.answer i), i) := by
  have stored := fun p : Place => p.query_value h
  cases q with
  | setpoint l => exact stored (.number (.setpoint l))
  | proportional l => exact stored (.number (.proportional l))
  | integral l => exact stored (.number (.integral l))
  | derivative l => exact stored (.number (.derivative l))
  | feature l f => exact stored (.switch l f)
  | features l => exact Action.perform_bind_value_of_ok (Action.features_value h l) _
  | featureWord => exact Action.perform_bind_value_of_ok (featureWord_value h) _
  | relockLow l => exact stored (.number (.relockLow l))
  | relockHigh l => exact stored (.number (.relockHigh l))
  | relockStep l => exact stored (.number (.relockStep l))
  | relockPin l => exact stored (.number (.relockPin l))
  | limit d b => exact stored (.number (.limit d b))
  | pinValue p =>
    cases p with
    | input k => exact Action.perform_bind_value_of_ok (slowInput_value h k) _
    | output k => exact stored (.number (.slowOutput k))
  | inputVoltage d => exact Action.perform_bind_value_of_ok (inputVoltage_value h d) _
  | outputVoltage d => exact Action.perform_bind_value_of_ok (outputVoltage_value h d) _
  | calibration => rfl
  | capture => exact Action.perform_bind_value_of_ok (ParameterSet.capture_value h) _

end Query

end LockServo

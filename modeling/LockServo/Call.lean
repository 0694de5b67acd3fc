import LockServo.ParameterSet.Basic

/-!
# Calls

The operations of an instrument as data, so that a run of them is a list. A setter stores, a query only
reads, and every call gives an answer or a fault.
-/

namespace LockServo

open Register

inductive Setter (ν : Type) where
  | setpoint (loop : Loop) (volts : ν)
  | proportional (loop : Loop) (value : ν)
  | integral (loop : Loop) (value : ν)
  | derivative (loop : Loop) (count : UInt32)
  | feature (loop : Loop) (feature : Feature) (on : Bool)
  | features (loop : Loop) (set : FeatureSet)
  | relockLow (loop : Loop) (volts : ν)
  | relockHigh (loop : Loop) (volts : ν)
  | relockStep (loop : Loop) (rate : ν)
  | relockPin (loop : Loop) (pin : Pin)
  | relockCode (loop : Loop) (code : Nat)
  | limit (channel : Channel) (bound : Bound) (volts : ν)
  | pinValue (pin : Pin) (volts : ν)
  | resetPins
  | reload (record : Calibration ν)
  deriving DecidableEq

inductive Query where
  | setpoint (loop : Loop)
  | proportional (loop : Loop)
  | integral (loop : Loop)
  | derivative (loop : Loop)
  | feature (loop : Loop) (feature : Feature)
  | features (loop : Loop)
  | featureWord
  | relockLow (loop : Loop)
  | relockHigh (loop : Loop)
  | relockStep (loop : Loop)
  | relockPin (loop : Loop)
  | limit (channel : Channel) (bound : Bound)
  | pinValue (pin : Pin)
  | inputVoltage (channel : Channel)
  | outputVoltage (channel : Channel)
  | calibration
  | capture
  deriving DecidableEq

inductive Answer (ν : Type) where
  | done
  | quantity (value : ν)
  | word (count : UInt32)
  | switch (on : Bool)
  | features (set : FeatureSet)
  | pin (pin : Pin)
  | calibration (record : Calibration ν)
  | parameters (set : ParameterSet ν)
  deriving DecidableEq

inductive Call (ν : Type) where
  | store (setter : Setter ν)
  | ask (query : Query)
  | apply (set : ParameterSet ν)
  /-- Reloads without a report, and answers the record before it. -/
  | exchange (record : Calibration ν)
  deriving DecidableEq

variable {ν : Type} [Arithmetic ν]

def Setter.perform : Setter ν → Action ν Unit
  | .setpoint l v => Action.setSetpoint l v
  | .proportional l v => Action.setProportional l v
  | .integral l v => Action.setIntegral l v
  | .derivative l n => Action.setDerivative l n
  | .feature l f on => Action.setFeature l f on
  | .features l s => Action.setFeatures l s
  | .relockLow l v => Action.setRelockLow l v
  | .relockHigh l v => Action.setRelockHigh l v
  | .relockStep l v => Action.setRelockStep l v
  | .relockPin l p => Action.setRelockPin l p
  | .relockCode l n => Action.setRelockCode l n
  | .limit c b v => Action.setLimit c b v
  | .pinValue p v => Action.setPinValue p v
  | .resetPins => Action.resetPins
  | .reload record => Action.reloadCalibration record

def Query.perform : Query → Action ν (Answer ν)
  | .setpoint l => return .quantity (← Action.setpoint l)
  | .proportional l => return .quantity (← Action.proportional l)
  | .integral l => return .quantity (← Action.integral l)
  | .derivative l => return .word (← Action.derivative l)
  | .feature l f => return .switch (← Action.feature l f)
  | .features l => return .features (← Action.features l)
  | .featureWord => return .word (← Action.featureWord)
  | .relockLow l => return .quantity (← Action.relockLow l)
  | .relockHigh l => return .quantity (← Action.relockHigh l)
  | .relockStep l => return .quantity (← Action.relockStep l)
  | .relockPin l => return .pin (← Action.relockPin l)
  | .limit c b => return .quantity (← Action.limit c b)
  | .pinValue p => return .quantity (← Action.pinValue p)
  | .inputVoltage c => return .quantity (← Action.inputVoltage c)
  | .outputVoltage c => return .quantity (← Action.outputVoltage c)
  | .calibration => return .calibration (← Action.calibration)
  | .capture => return .parameters (← ParameterSet.capture)

namespace Call

def perform : Call ν → Action ν (Answer ν)
  | .store setter => do
    setter.perform
    return .done
  | .ask query => query.perform
  | .apply set => do
    set.apply
    return .done
  | .exchange record => return .calibration (← Action.exchangeCalibration record)

def run : List (Call ν) → Instrument ν →
    Reporting (List (Except (Fault ν) (Answer ν)) × Instrument ν)
  | [], i => return ([], i)
  | call :: rest, i => do
    let (answer, i) ← call.perform.perform i
    let (answers, i) ← run rest i
    return (answer :: answers, i)

end Call

end LockServo

import LockServo.Instrument.Channels
import LockServo.Instrument.Loop

/-!
# Parameter sets

Every parameter of some loops and some outputs, as physical values. Applying a set calls the setters one
after another, so values are refused and clamped as in single calls; the first refusal ends it.
-/

namespace LockServo

open Register

structure LoopParameters (ν : Type) where
  loop : Loop
  setpoint : ν
  proportional : ν
  integral : ν
  derivative : UInt32
  features : FeatureSet
  relockLow : ν
  relockHigh : ν
  relockStep : ν
  relockPin : Pin
  deriving DecidableEq

structure LimitParameters (ν : Type) where
  channel : Channel
  low : ν
  high : ν
  deriving DecidableEq

structure ParameterSet (ν : Type) where
  loops : List (LoopParameters ν)
  limits : List (LimitParameters ν)
  deriving DecidableEq

variable {ν : Type} [Arithmetic ν]

namespace LoopParameters

def capture (l : Loop) : Action ν (LoopParameters ν) :=
  return {
    loop := l
    setpoint := ← Action.setpoint l
    proportional := ← Action.proportional l
    integral := ← Action.integral l
    derivative := ← Action.derivative l
    features := ← Action.features l
    relockLow := ← Action.relockLow l
    relockHigh := ← Action.relockHigh l
    relockStep := ← Action.relockStep l
    relockPin := ← Action.relockPin l }

def apply (p : LoopParameters ν) : Action ν Unit := do
  Action.setSetpoint p.loop p.setpoint
  Action.setProportional p.loop p.proportional
  Action.setIntegral p.loop p.integral
  Action.setDerivative p.loop p.derivative
  Action.setRelockLow p.loop p.relockLow
  Action.setRelockHigh p.loop p.relockHigh
  Action.setRelockStep p.loop p.relockStep
  Action.setRelockPin p.loop p.relockPin
  Action.setFeatures p.loop p.features

end LoopParameters

namespace LimitParameters

def capture (c : Channel) : Action ν (LimitParameters ν) :=
  return { channel := c, low := ← Action.limit c .low, high := ← Action.limit c .high }

def apply (p : LimitParameters ν) : Action ν Unit := do
  Action.setLimit p.channel .low p.low
  Action.setLimit p.channel .high p.high

end LimitParameters

namespace ParameterSet

def capture : Action ν (ParameterSet ν) := do
  let loops ← Loop.all.mapM LoopParameters.capture
  let limits ← Channel.all.mapM LimitParameters.capture
  return ⟨loops, limits⟩

def apply (p : ParameterSet ν) : Action ν Unit := do
  p.loops.forM LoopParameters.apply
  p.limits.forM LimitParameters.apply
  Action.ofReporting (report .parametersApplied)

end ParameterSet

end LockServo

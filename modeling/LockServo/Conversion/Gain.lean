import LockServo.Conversion.Scale

/-!
# Gains and rates

Fixed-point quantities: a count is the value times a factor, rounded, and held at the mask. The factors
are those of the loop hardware, as doubles.
-/

namespace LockServo.Gain

open Arithmetic

/-- Seconds between two samples of a loop. -/
def timestep : Rat := onGrid (8 / 1000000000)

/-- The voltage of one count of an output converter. -/
def converterStep : Rat := onGrid (1221 / 10000000)

def proportionalFactor : Rat := 0x1000

def integralFactor : Rat := onGrid (0x10000000 * timestep)

def stepFactor : Rat := onGrid (onGrid (0x40000 * timestep) / converterStep)

variable {ν : Type} [Arithmetic ν]

def encode (quantity : Quantity) (factor : ν) (mask : UInt32) (value : ν) :
    Conversion ν UInt32 := do
  if isNaN value || less value (ofNat 0) then
    throw (.invalid quantity value)
  let raw := roundAway (value * factor)
  if less (ofNat mask.toNat) raw then
    report .gainAbove
    return mask
  else
    return UInt32.ofInt (truncate 0 0xFFFFFFFF raw)

def decode (factor : ν) (count : UInt32) : ν := ofNat count.toNat / factor

end LockServo.Gain

import LockServo.Calibration
import LockServo.Register.Word

/-!
# Calibrated voltages

A field of up to 31 bits over a full-scale voltage, with or without a sign. Encoding rounds to the
nearest count and stays at the ends of the range; an unsigned field refuses negative voltages and
never reads back one.
-/

namespace LockServo

/-- A conversion may refuse its argument and report what it did to it. -/
abbrev Conversion (ν α : Type) := ExceptT (Fault ν) Reporting α

structure Scale (ν : Type) where
  bits : Nat
  fullScale : ν
  signed : Bool
  bits_pos : 0 < bits := by decide
  bits_le : bits ≤ 31 := by decide

namespace Scale

open Arithmetic

variable {ν : Type}

def mask (s : Scale ν) : UInt32 := (1 <<< UInt32.ofNat s.bits) - 1

/-- The count that stands for the full scale. -/
def span (s : Scale ν) : Nat := 1 <<< (if s.signed then s.bits - 1 else s.bits)

def lowest (s : Scale ν) : Int := if s.signed then -(1 <<< (s.bits - 1) : Nat) else 0

def highest (s : Scale ν) : Int := (s.span : Int) - 1

variable [Arithmetic ν]

def step (s : Scale ν) : ν := s.fullScale / ofNat s.span

def encode (s : Scale ν) (c : Correction ν) (userOffset volts : ν) : Conversion ν UInt32 := do
  if isNaN volts || (!s.signed && less volts (ofNat 0)) then
    throw (.invalid .voltage volts)
  let offset ← c.usableOffset
  let shifted := volts - offset - userOffset
  let gain ← c.usableGain
  let raw := roundAway (shifted / s.fullScale * gain * ofNat s.span)
  let count ← clamp raw
  return UInt32.ofInt count &&& s.mask
where
  clamp (raw : ν) : Conversion ν Int := do
    if less (ofInt s.highest) raw then
      report .voltageAbove
      return s.highest
    else if less raw (ofInt s.lowest) then
      report .voltageBelow
      return s.lowest
    else
      return truncate (-0x8000000000000000) 0x7FFFFFFFFFFFFFFF raw

def count (s : Scale ν) (word : UInt32) : Int :=
  let raw := word &&& s.mask
  if s.signed then Register.signExtend raw s.bits else raw.toNat

def decode (s : Scale ν) (c : Correction ν) (userOffset : ν) (word : UInt32) : Reporting ν := do
  let gain ← c.usableGain
  let offset ← c.usableOffset
  let volts := ofInt (s.count word) / ofNat s.span / gain * s.fullScale + offset + userOffset
  return if s.signed then volts else clampNonNegative volts

/-- Setpoints and limits: fourteen bits over one volt. -/
def unipolar : Scale ν where
  bits := 14
  fullScale := ofNat 1
  signed := false

/-- Fast inputs and outputs: fourteen bits with a sign over one volt. -/
def bipolar : Scale ν where
  bits := 14
  fullScale := ofNat 1
  signed := true

end Scale

end LockServo

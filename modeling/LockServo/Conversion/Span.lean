import LockServo.Conversion.Scale

/-!
# Absolute voltages

The slow converters count linearly over a fixed span of voltages. Encoding truncates, with a slack of a
billionth of a count so that a voltage read back stays at its count.
-/

namespace LockServo

open Arithmetic

structure Span where
  low : Rat
  high : Rat
  /-- The count at the high end. -/
  top : Nat
  deriving DecidableEq

namespace Span

/-- Slow inputs, and the bounds that relocking compares them with. -/
def slowInput : Span := ⟨0, 7, 4095⟩

def slowOutput : Span := ⟨0, onGrid (18 / 10), 156⟩

def slack : Rat := onGrid (1 / 1000000000)

variable {ν : Type} [Arithmetic ν]

def position (s : Span) (volts : ν) : ν :=
  (volts - ofRat s.low) / (ofRat s.high - ofRat s.low) * ofNat s.top

def voltage (s : Span) (count : UInt32) : ν :=
  ofNat count.toNat / ofNat s.top * (ofRat s.high - ofRat s.low) + ofRat s.low

def wholeCount (position : ν) : Nat :=
  (truncate 0 0xFFFFFFFF (position + ofRat slack)).toNat

/-- Accepts every voltage but a NaN, and holds the count inside the span. -/
def encodeInput (volts : ν) : Conversion ν UInt32 := do
  if isNaN volts then
    throw (.invalid .absoluteVoltage volts)
  let place := slowInput.position volts
  let count := min (wholeCount place) slowInput.top
  if less place (ofNat 0) || !less place (ofNat (slowInput.top + 1)) then
    report .absoluteOutside
  return UInt32.ofNat count

/-- Refuses negative voltages, and stops at the top of the span. -/
def encodeOutput (volts : ν) : Conversion ν UInt32 := do
  if isNaN volts || less volts (ofNat 0) then
    throw (.invalid .analogOutput volts)
  let place := slowOutput.position volts
  if less (ofNat slowOutput.top) place then
    report .analogOutputAbove
    return UInt32.ofNat slowOutput.top
  else
    return UInt32.ofNat (wholeCount place)

end Span

end LockServo

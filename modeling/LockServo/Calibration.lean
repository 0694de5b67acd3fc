import LockServo.Arithmetic
import LockServo.Channel
import LockServo.Event

/-!
# Calibration

Gain and offset of each fast channel. A conversion never uses an unusable number: a gain that is not
finite and positive counts as one, an offset that is not finite as zero, and each such case is reported.
-/

namespace LockServo

structure PerChannel (α : Type) where
  one : α
  two : α
  deriving DecidableEq

namespace PerChannel

variable {α β : Type}

def get (p : PerChannel α) : Channel → α
  | .one => p.one
  | .two => p.two

def toList (p : PerChannel α) : List α := [p.one, p.two]

def all (p : PerChannel α) (test : α → Bool) : Bool := test p.one && test p.two

end PerChannel

structure Correction (ν : Type) where
  gain : ν
  offset : ν
  deriving DecidableEq

namespace Correction

open Arithmetic

variable {ν : Type} [Arithmetic ν]

def ideal : Correction ν := ⟨ofNat 1, ofNat 0⟩

def hasUsableGain (c : Correction ν) : Bool := isFinite c.gain && less (ofNat 0) c.gain

def usableGain (c : Correction ν) : Reporting ν :=
  if c.hasUsableGain then pure c.gain
  else do
    report .unusableGain
    return ofNat 1

def usableOffset (c : Correction ν) : Reporting ν :=
  if isFinite c.offset then pure c.offset
  else do
    report .unusableOffset
    return ofNat 0

def hasFiniteValues (c : Correction ν) : Bool := isFinite c.gain && isFinite c.offset

/-- The correction that conversions use in place of this one. -/
def sanitized (c : Correction ν) : Correction ν := ⟨c.usableGain.value, c.usableOffset.value⟩

end Correction

structure Calibration (ν : Type) where
  input : PerChannel (Correction ν)
  output : PerChannel (Correction ν)
  deriving DecidableEq

namespace Calibration

variable {ν : Type} [Arithmetic ν]

def ideal : Calibration ν := ⟨⟨.ideal, .ideal⟩, ⟨.ideal, .ideal⟩⟩

def hasFiniteValues (c : Calibration ν) : Bool :=
  c.input.all (·.hasFiniteValues) && c.output.all (·.hasFiniteValues)

def sanitized (c : Calibration ν) : Calibration ν :=
  ⟨⟨c.input.one.sanitized, c.input.two.sanitized⟩, ⟨c.output.one.sanitized, c.output.two.sanitized⟩⟩

end Calibration

end LockServo

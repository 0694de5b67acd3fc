import LockServo.Binary64.Operations

/-!
# Number systems

What a unit conversion needs of its numbers. The instrument computes in doubles; rationals give the
same formulas without rounding, and any other rounding can be put in their place.
-/

namespace LockServo

class Arithmetic (ν : Type) extends Add ν, Sub ν, Mul ν, Div ν where
  ofRat : Rat → ν
  isNaN : ν → Bool
  isFinite : ν → Bool
  /-- Strictly below; never true of a NaN. -/
  less : ν → ν → Bool
  /-- To the nearest whole number, halves away from zero. -/
  roundAway : ν → ν
  /-- The whole part, held between two bounds; a NaN counts as zero. -/
  truncate (low high : Int) : ν → Int

instance : Arithmetic Binary64 where
  add := Binary64.add
  sub := Binary64.sub
  mul := Binary64.mul
  div := Binary64.div
  ofRat := Binary64.ofRat
  isNaN := Binary64.isNaN
  isFinite := Binary64.isFinite
  less := Binary64.less
  roundAway := Binary64.roundAway
  truncate := Binary64.truncate

/-- The nearest whole number to a rational, halves away from zero. -/
def nearestInt (q : Rat) : Int :=
  if q < 0 then -((-q + 1 / 2).floor) else (q + 1 / 2).floor

/-- The whole part of a rational, towards zero. -/
def wholePart (q : Rat) : Int :=
  if q < 0 then -((-q).floor) else q.floor

instance : Arithmetic Rat where
  ofRat q := q
  isNaN _ := false
  isFinite _ := true
  less x y := x < y
  roundAway x := nearestInt x
  truncate low high x := max low (min high (wholePart x))

namespace Arithmetic

variable {ν : Type} [Arithmetic ν]

def ofNat (n : Nat) : ν := ofRat n

def ofInt (n : Int) : ν := ofRat n

/-- Zero in place of everything that is not above zero, be it a NaN or the zero below zero. -/
def clampNonNegative (x : ν) : ν := if less (ofNat 0) x then x else ofNat 0

end Arithmetic

/-- The double nearest to a rational, as a rational. -/
def onGrid (q : Rat) : Rat := (Binary64.ofRat q).toRat

end LockServo

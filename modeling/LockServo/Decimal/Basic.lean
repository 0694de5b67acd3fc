import LockServo.Binary64.Rounding

/-!
# Decimal numbers

`digits * 10 ^ exponent` under a sign, read as the nearest double. Exponents far outside the range of
doubles are settled by the count of digits, before any power is computed.
-/

namespace LockServo

structure Decimal where
  negative : Bool
  digits : Nat
  exponent : Int
  deriving DecidableEq

def decimalLength (n : Nat) : Nat := (Nat.toDigits 10 n).length

/-- `digits * 10 ^ exponent`, in smallest steps, rounded. -/
def Binary64.nearestDecimal (digits : Nat) (exponent : Int) : Nat :=
  match exponent with
  | .ofNat k => nearestUnits (digits * Nat.pow 10 k * one) 1
  | .negSucc k => nearestUnits (digits * one) (Nat.pow 10 (k + 1))

namespace Decimal

/-- The power of ten just above the number. -/
def magnitude (x : Decimal) : Int := decimalLength x.digits + x.exponent

def toBinary64 (x : Decimal) : Binary64 :=
  if x.digits = 0 then .zero x.negative
  else if x.magnitude > 400 then .infinite x.negative
  else if x.magnitude < -400 then .zero x.negative
  else .ofUnits x.negative (Binary64.nearestDecimal x.digits x.exponent)

end Decimal

end LockServo

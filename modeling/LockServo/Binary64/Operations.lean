import LockServo.Binary64.Rounding

/-!
# Arithmetic on doubles

Each operation rounds its exact result once. The two roundings to whole numbers at the end are exact:
to the nearest with halves away from zero, and towards zero with both ends closed.
-/

namespace LockServo.Binary64

/-- The double nearest to a whole number of steps; an exact zero takes the sign asked for. -/
def ofSteps (zeroIsNegative : Bool) (steps : Int) : Binary64 :=
  if steps = 0 then zero zeroIsNegative else nearest (steps < 0) steps.natAbs 1

def add : Binary64 → Binary64 → Binary64
  | .nan s, _ => .nan s
  | _, .nan t => .nan t
  | .infinite s, .infinite t => if s = t then .infinite s else .nan false
  | .infinite s, .finite .. => .infinite s
  | .finite .., .infinite t => .infinite t
  | .finite s m _, .finite t n _ => ofSteps (s && t) (signed s m + signed t n)

def sub (x : Binary64) : Binary64 → Binary64
  | .nan t => add x (.nan t)
  | y => add x y.neg

def mul : Binary64 → Binary64 → Binary64
  | .nan s, _ => .nan s
  | _, .nan t => .nan t
  | .infinite s, .infinite t => .infinite (s ^^ t)
  | .infinite s, .finite t n _ => if n = 0 then .nan false else .infinite (s ^^ t)
  | .finite s m _, .infinite t => if m = 0 then .nan false else .infinite (s ^^ t)
  | .finite s m _, .finite t n _ => nearest (s ^^ t) (m * n) one

def div : Binary64 → Binary64 → Binary64
  | .nan s, _ => .nan s
  | _, .nan t => .nan t
  | .infinite _, .infinite _ => .nan false
  | .infinite s, .finite t _ _ => .infinite (s ^^ t)
  | .finite s _ _, .infinite t => zero (s ^^ t)
  | .finite s m _, .finite t n _ =>
    if n = 0 then (if m = 0 then .nan false else .infinite (s ^^ t))
    else nearest (s ^^ t) (m * one) n

def roundAway : Binary64 → Binary64
  | .finite s m _ => ofUnits s ((2 * m + one) / (2 * one) * one)
  | x => x

def truncate (low high : Int) : Binary64 → Int
  | .nan _ => 0
  | .infinite s => if s then low else high
  | .finite s m _ => max low (min high (signed s (m / one)))

end LockServo.Binary64

import LockServo.Decimal.Basic

/-!
# Shortest decimals

The fewest digits that read back as the same double. On the grid of each digit count only the two
neighbours of the number can read back; the first grid with a hit wins, and of two hits the nearer.
-/

namespace LockServo.Decimal

/-- Which of two equally near decimals is taken. -/
inductive Tie where
  | up
  | even
  deriving DecidableEq

def leadingExponent (units : Nat) : Int :=
  (decimalLength (units * Nat.pow 10 400 / Binary64.one) : Int) - 401

/-- A count of steps measured in units of `10 ^ exponent`, as a quotient. -/
def quotient (units : Nat) : Int → Nat × Nat
  | .ofNat k => (units, Binary64.one * Nat.pow 10 k)
  | .negSucc k => (units * Nat.pow 10 (k + 1), Binary64.one)

/-- The digits over `10 ^ exponent` that read back, if there are any. -/
def onGrid? (tie : Tie) (units : Nat) (exponent : Int) : Option Nat :=
  let (n, d) := quotient units exponent
  let low := n / d
  let rest := n % d
  let lowHits := Binary64.nearestDecimal low exponent == units
  let highHits := Binary64.nearestDecimal (low + 1) exponent == units
  let preferHigh := d < 2 * rest || (d == 2 * rest && (tie == .up || low % 2 == 1))
  if highHits && (!lowHits || preferHigh) then some (low + 1)
  else if lowHits then some low
  else none

theorem onGrid?_readsBack {tie : Tie} {units digits : Nat} {exponent : Int}
    (h : onGrid? tie units exponent = some digits) :
    Binary64.nearestDecimal digits exponent = units := by
  unfold onGrid? at h
  grind

def stripZeros : Nat → Nat → Int → Nat × Int
  | 0, digits, exponent => (digits, exponent)
  | fuel + 1, digits, exponent =>
    if digits % 10 = 0 then stripZeros fuel (digits / 10) (exponent + 1) else (digits, exponent)

/-- The digits and exponent of a positive count of smallest steps; seventeen digits always suffice. -/
def ofUnits (tie : Tie) (units : Nat) : Nat × Int :=
  let top := leadingExponent units
  let hit := (List.range 17).findSome? fun (count : Nat) =>
    let exponent := top - count
    (onGrid? tie units exponent).map fun digits => stripZeros 17 digits exponent
  hit.getD (units, 0)

def ofBinary64? (tie : Tie) : Binary64 → Option Decimal
  | .finite negative units _ =>
    if units = 0 then some ⟨negative, 0, 0⟩
    else
      let (digits, exponent) := ofUnits tie units
      some ⟨negative, digits, exponent⟩
  | _ => none

end LockServo.Decimal

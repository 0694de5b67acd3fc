import LockServo.Decimal.Shortest

/-!
# Decimal notation

Three layouts of the shortest digits: bare positional text for messages, positional text with a
fraction for documents, and text with an exponent outside a window of magnitudes for reports.
-/

namespace LockServo.Decimal

def zeros (n : Nat) : String := String.ofList (List.replicate n '0')

/-- The digits with the point at its place; no point when no digit follows it. -/
def positional (digits : Nat) (exponent : Int) : String :=
  let text := (Nat.toDigits 10 digits)
  let point := (text.length : Int) + exponent
  if 0 ≤ exponent then String.ofList text ++ zeros exponent.toNat
  else if 0 < point then
    String.ofList (text.take point.toNat) ++ "." ++ String.ofList (text.drop point.toNat)
  else "0." ++ zeros (-point).toNat ++ String.ofList text

def sign (negative : Bool) : String := if negative then "-" else ""

def fractional (x : Decimal) : String :=
  sign x.negative ++ positional x.digits x.exponent ++ (if 0 ≤ x.exponent then ".0" else "")

def scientific (x : Decimal) : String :=
  let text := Nat.toDigits 10 x.digits
  let power := (text.length : Int) + x.exponent - 1
  let fraction := text.drop 1
  sign x.negative ++ String.ofList (text.take 1) ++
    (if fraction.isEmpty then "" else "." ++ String.ofList fraction) ++
    (if power < 0 then "e-" else "e+") ++ toString power.natAbs

end LockServo.Decimal

namespace LockServo.Binary64

/-- In messages: `-1`, `0.25`, `NaN`, `inf`. -/
def toMessage (x : Binary64) : String :=
  match x, Decimal.ofBinary64? .up x with
  | _, some d => Decimal.sign d.negative ++ Decimal.positional d.digits d.exponent
  | .infinite negative, none => Decimal.sign negative ++ "inf"
  | _, none => "NaN"

/-- In documents: `-1.0`, `0.25`, `-inf`, and `nan` whatever the sign. -/
def toDocument (x : Binary64) : String :=
  match x, Decimal.ofBinary64? .up x with
  | _, some d => d.fractional
  | .infinite negative, none => Decimal.sign negative ++ "inf"
  | _, none => "nan"

/-- In reports: positional from `1e-5` up to `1e16` and for zero, with an exponent elsewhere, and
`null` for what is not finite. -/
def toReport (x : Binary64) : String :=
  match Decimal.ofBinary64? .even x with
  | none => "null"
  | some d =>
    if d.digits = 0 ∨ (-5 < d.magnitude ∧ d.magnitude ≤ 16) then d.fractional else d.scientific

end LockServo.Binary64

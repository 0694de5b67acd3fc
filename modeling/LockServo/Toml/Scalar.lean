import LockServo.Document.Value
import LockServo.Text.Blank

/-!
# Numbers, words and dates in TOML

What a value without quotes or brackets stands for. Underscores may separate digits. Integers reach from
the least signed to the greatest unsigned 128-bit word. A larger one, a float beyond the doubles, and what
only has the outline of an integer are part of a document, but unreadable.
-/

namespace LockServo.Toml

/-- The digits of a run in which single underscores stand between digits. -/
def digits? (base : Nat) : List Char → Option (List Char)
  | [] => none
  | [c] => if isDigit c then some [c] else none
  | c :: '_' :: rest => if isDigit c then (digits? base rest).map (c :: ·) else none
  | c :: rest => if isDigit c then (digits? base rest).map (c :: ·) else none
where
  isDigit (c : Char) : Bool :=
    match Text.hexDigit? c with
    | some d => d < base
    | none => false

def sign (s : List Char) : Bool × List Char :=
  match s with
  | '-' :: rest => (true, rest)
  | '+' :: rest => (false, rest)
  | _ => (false, s)

def wholeDigits? (s : List Char) : Option (List Char) := do
  let ds ← digits? 10 s
  match ds with
  | '0' :: _ :: _ => none
  | _ => some ds

def integer (n : Int) : Value :=
  if -((1 <<< 127 : Nat) : Int) ≤ n ∧ n < ((1 <<< 128 : Nat) : Int) then .integer n else .unreadable

def decimalInteger? (s : List Char) : Option Value := do
  let (negative, body) := sign s
  let n ← Text.number? 10 (← wholeDigits? body)
  return integer (if negative then -(n : Int) else n)

def basedInteger? (s : List Char) : Option Value := do
  let (base, body) ← match s with
    | '0' :: 'x' :: body => some (16, body)
    | '0' :: 'o' :: body => some (8, body)
    | '0' :: 'b' :: body => some (2, body)
    | _ => none
  let n ← Text.number? base (← digits? base body)
  return integer n

/-- What only has the outline of an integer: a mark of a base without digits, or a decimal run that goes
on with underscores between digits of any base, whatever else the pieces hold between their ends. A point
or the mark of an exponent would make it a float. -/
def isIntegerOutline (s : List Char) : Bool :=
  match s with
  | ['0', 'x'] | ['0', 'o'] | ['0', 'b'] => true
  | _ =>
    match Text.splitAt '_' (sign s).2 with
    | first :: rest =>
      (digits? 10 first).isSome && first.head? != some '0' && !rest.isEmpty &&
        rest.all (startsWithDigit ·) && rest.dropLast.all (startsWithDigit ·.reverse) &&
        !s.any fun c => c == '.' || c == 'e' || c == 'E'
    | [] => false
where
  startsWithDigit (piece : List Char) : Bool := (piece.head?.bind Text.hexDigit?).isSome

def cut (isMark : Char → Bool) (s : List Char) : List Char × Option (List Char) :=
  match s.dropWhile (!isMark ·) with
  | [] => (s, none)
  | _ :: rest => (s.takeWhile (!isMark ·), some rest)

def exponent? : Option (List Char) → Option Int
  | none => some 0
  | some s => do
    let (negative, body) := sign s
    let n ← Text.number? 10 (← digits? 10 body)
    return if negative then -(n : Int) else n

def decimalFloat? (s : List Char) : Option Value := do
  let (negative, body) := sign s
  let (mantissa, power) := cut (fun c => c == 'e' || c == 'E') body
  let (whole, fraction) := cut (· == '.') mantissa
  let wholeDigits ← wholeDigits? whole
  let fractionDigits ← match fraction with
    | none => some []
    | some f => digits? 10 f
  let exponent ← exponent? power
  let n ← Text.number? 10 (wholeDigits ++ fractionDigits)
  let x := Decimal.toBinary64 ⟨negative, n, exponent - fractionDigits.length⟩
  return if x.isFinite then .float x else .unreadable

def word? (s : List Char) : Option Value :=
  match String.ofList s with
  | "true" => some (.boolean true)
  | "false" => some (.boolean false)
  | "inf" | "+inf" => some (.float (.infinite false))
  | "-inf" => some (.float (.infinite true))
  | "nan" | "+nan" => some (.float (.nan false))
  | "-nan" => some (.float (.nan true))
  | _ => none

/-! ## Dates and times -/

def decimalDigit? (c : Char) : Option Nat := if c.isDigit then some (c.toNat - 48) else none

def twoDigits? (low high : Nat) (a b : Char) : Option Nat := do
  let n := 10 * (← decimalDigit? a) + (← decimalDigit? b)
  if low ≤ n ∧ n ≤ high then some n else none

def isLeapYear (year : Nat) : Bool := year % 4 == 0 && (year % 100 != 0 || year % 400 == 0)

def daysIn (year month : Nat) : Nat :=
  if month = 2 then (if isLeapYear year then 29 else 28)
  else if month = 4 ∨ month = 6 ∨ month = 9 ∨ month = 11 then 30
  else 31

def afterDate? : List Char → Option (List Char)
  | a :: b :: c :: d :: '-' :: e :: f :: '-' :: g :: h :: rest => do
    let century ← twoDigits? 0 99 a b
    let year := 100 * century + (← twoDigits? 0 99 c d)
    let month ← twoDigits? 1 12 e f
    let _ ← twoDigits? 1 (daysIn year month) g h
    return rest
  | _ => none

def afterFraction? : List Char → Option (List Char)
  | '.' :: c :: rest => if c.isDigit then some (rest.dropWhile Char.isDigit) else none
  | '.' :: [] => none
  | s => some s

/-- What is behind a time of day; the seconds may be left out. -/
def afterTime? : List Char → Option (List Char)
  | a :: b :: ':' :: c :: d :: rest => do
    let _ ← twoDigits? 0 23 a b
    let _ ← twoDigits? 0 59 c d
    match rest with
    | ':' :: e :: f :: rest => do
      let _ ← twoDigits? 0 60 e f
      afterFraction? rest
    | _ => return rest
  | _ => none

def isOffset : List Char → Bool
  | [] | ['Z'] | ['z'] => true
  | [s, a, b, ':', c, d] =>
    (s == '+' || s == '-') && (twoDigits? 0 23 a b).isSome && (twoDigits? 0 59 c d).isSome
  | _ => false

def isMoment (s : List Char) : Bool :=
  match afterDate? s with
  | some [] => true
  | some (c :: rest) =>
    (c == 'T' || c == 't' || c == ' ') && match afterTime? rest with
      | some rest => isOffset rest
      | none => false
  | none => afterTime? s == some []

def scalar? (s : List Char) : Option Value :=
  word? s <|> decimalInteger? s <|> basedInteger? s <|> decimalFloat? s <|>
    if isMoment s then some .moment
    else if isIntegerOutline s then some .unreadable
    else none

end LockServo.Toml

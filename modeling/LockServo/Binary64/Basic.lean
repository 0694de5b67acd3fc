/-!
# Double-precision numbers

A finite number is a sign and a count of the smallest step `2 ^ (-1074)`, so that sums, comparisons
and the error of a rounding are facts about natural numbers.
-/

namespace LockServo

namespace Binary64

/-- The binary places of `m` that lie below its 53 leading ones. -/
def lastPlace (m : Nat) : Nat := m.log2 - 52

def one : Nat := 1 <<< 1074

/-- The first magnitude that no finite number reaches, in steps. -/
def overflow : Nat := 1 <<< 2098

theorem overflow_pos : 0 < overflow := by
  rw [overflow, Nat.one_shiftLeft]
  exact Nat.two_pow_pos 2098

/-- At most 53 significant binary digits, and below the overflow. -/
def Representable (m : Nat) : Prop := m < overflow ∧ 1 <<< lastPlace m ∣ m

instance (m : Nat) : Decidable (Representable m) := inferInstanceAs (Decidable (_ ∧ _))

theorem representable_zero : Representable 0 := ⟨overflow_pos, Nat.dvd_zero _⟩

end Binary64

/-- A NaN keeps a sign and no payload: all NaNs of a sign are one number. -/
inductive Binary64 where
  | nan (negative : Bool)
  | infinite (negative : Bool)
  | finite (negative : Bool) (units : Nat) (representable : Binary64.Representable units)
  deriving DecidableEq

namespace Binary64

def zero (negative : Bool) : Binary64 := .finite negative 0 representable_zero

instance : Inhabited Binary64 := ⟨zero false⟩

/-- The number with this many steps, infinite from the first magnitude that overflows. -/
def ofUnits (negative : Bool) (units : Nat) : Binary64 :=
  if h : Representable units then .finite negative units h else .infinite negative

@[simp] theorem ofUnits_of_representable {negative : Bool} {units : Nat} (h : Representable units) :
    ofUnits negative units = .finite negative units h := by
  simp [ofUnits, h]

def isNaN : Binary64 → Bool
  | .nan _ => true
  | _ => false

def isFinite : Binary64 → Bool
  | .finite .. => true
  | _ => false

def isNegative : Binary64 → Bool
  | .nan negative | .infinite negative | .finite negative .. => negative

def neg : Binary64 → Binary64
  | .nan negative => .nan !negative
  | .infinite negative => .infinite !negative
  | .finite negative units h => .finite (!negative) units h

def signed (negative : Bool) (magnitude : Nat) : Int :=
  if negative then -(magnitude : Int) else magnitude

/-- The place of a number on the line of steps: infinities stand just outside every finite number,
the two zeros coincide, and a NaN has no place. -/
def position : Binary64 → Option Int
  | .nan _ => none
  | .infinite negative => some (signed negative overflow)
  | .finite negative units _ => some (signed negative units)

def less (x y : Binary64) : Bool :=
  match x.position, y.position with
  | some a, some b => a < b
  | _, _ => false

/-- The exact value of a finite number; zero stands in for the others. -/
def toRat : Binary64 → Rat
  | .finite negative units _ => (signed negative units : Rat) / (one : Rat)
  | _ => 0

/-! ## Interchange bits: one sign bit, eleven exponent bits, fifty-two fraction bits -/

def ofBits (bits : Nat) : Binary64 :=
  let negative := (bits >>> 63) % 2 == 1
  let exponent := (bits >>> 52) % 0x800
  let fraction := bits % (1 <<< 52)
  if exponent = 0x7FF then
    if fraction = 0 then .infinite negative else .nan negative
  else if exponent = 0 then ofUnits negative fraction
  else ofUnits negative ((1 <<< 52 + fraction) <<< (exponent - 1))

/-- For a finite number the exponent field is the last place, raised by the leading digit that a
normal number does not store. -/
def toBits : Binary64 → Nat
  | .nan negative => negative.toNat <<< 63 + 0xFFF <<< 51
  | .infinite negative => negative.toNat <<< 63 + 0x7FF <<< 52
  | .finite negative units _ =>
    negative.toNat <<< 63 + lastPlace units <<< 52 + units >>> lastPlace units

end Binary64

end LockServo

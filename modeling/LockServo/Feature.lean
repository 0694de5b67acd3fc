import LockServo.Text.Blank

/-!
# Loop features

Five switches of a loop, and sets of them as eight bits. Bits that belong to no feature are kept in a
set, and written as one hexadecimal number after the names.
-/

namespace LockServo

inductive Feature where
  | integratorReset
  | inverted
  | resetWhenRailed
  | integratorHold
  | relock
  deriving DecidableEq

namespace Feature

def all : List Feature := [.integratorReset, .inverted, .resetWhenRailed, .integratorHold, .relock]

theorem mem_all (f : Feature) : f ∈ all := by cases f <;> decide

def index : Feature → Nat
  | .integratorReset => 0
  | .inverted => 1
  | .resetWhenRailed => 2
  | .integratorHold => 3
  | .relock => 4

theorem index_injective {f g : Feature} (h : f.index = g.index) : f = g := by
  cases f <;> cases g <;> first | rfl | contradiction

def label : Feature → String
  | .integratorReset => "integrator reset"
  | .inverted => "inverted"
  | .resetWhenRailed => "reset when railed"
  | .integratorHold => "integrator hold"
  | .relock => "relock"

def flag : Feature → String
  | .integratorReset => "INTEGRATOR_RESET"
  | .inverted => "INVERTED"
  | .resetWhenRailed => "RESET_WHEN_RAILED"
  | .integratorHold => "INTEGRATOR_HOLD"
  | .relock => "RELOCK"

def key : Feature → String
  | .integratorReset => "integrator_reset"
  | .inverted => "inverted"
  | .resetWhenRailed => "reset_when_railed"
  | .integratorHold => "integrator_hold"
  | .relock => "relock"

def ofKey? (s : String) : Option Feature := all.find? (·.key == s)

def bit (f : Feature) : UInt8 := 1 <<< UInt8.ofNat f.index

end Feature

structure FeatureSet where
  bits : UInt8
  deriving DecidableEq

namespace FeatureSet

def empty : FeatureSet := ⟨0⟩

def contains (s : FeatureSet) (f : Feature) : Bool := s.bits &&& f.bit != 0

def union (s t : FeatureSet) : FeatureSet := ⟨s.bits ||| t.bits⟩

def insert (s : FeatureSet) (f : Feature) : FeatureSet := ⟨s.bits ||| f.bit⟩

def ofList (fs : List Feature) : FeatureSet := fs.foldl insert empty

def known : UInt8 := 0x1F

def restrict (s : FeatureSet) : FeatureSet := ⟨s.bits &&& known⟩

def isEmpty (s : FeatureSet) : Bool := s.bits == 0

def isAll (s : FeatureSet) : Bool := s.bits &&& known == known

/-- The names in the order of their bits, then the bits without a name. -/
def toText (s : FeatureSet) : String :=
  let names := (Feature.all.filter s.contains).map Feature.flag
  let rest := s.bits &&& ~~~known
  let number := if rest = 0 then [] else ["0x" ++ String.ofList (Nat.toDigits 16 rest.toNat)]
  String.intercalate " | " (names ++ number)

/-- One part of a text: a name, or a number that fits the bits. -/
def part? (s : List Char) : Option FeatureSet :=
  match s with
  | '0' :: 'x' :: '+' :: digits => number digits
  | '0' :: 'x' :: digits => number digits
  | _ => (Feature.all.find? (·.flag.toList == s)).map fun f => ⟨f.bit⟩
where
  number (digits : List Char) : Option FeatureSet := do
    let n ← Text.number? 16 digits
    if n < 1 <<< 8 then some ⟨UInt8.ofNat n⟩ else none

/-- Parts between bars, each trimmed; a blank text is the empty set. -/
def ofText? (s : String) : Option FeatureSet :=
  let chars := s.toList
  if (Text.trim chars).isEmpty then some empty
  else (Text.splitAt '|' chars).foldlM (fun t piece => (part? (Text.trim piece)).map t.union) empty

end FeatureSet

end LockServo

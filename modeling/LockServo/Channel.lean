import LockServo.Fault

/-!
# Channels and loops

Two fast inputs and two fast outputs; a loop regulates on one input and drives one output.
-/

namespace LockServo

inductive Channel where
  | one
  | two
  deriving DecidableEq

namespace Channel

def all : List Channel := [.one, .two]

theorem mem_all (c : Channel) : c ∈ all := by cases c <;> decide

def index : Channel → Nat
  | .one => 0
  | .two => 1

def number (c : Channel) : Nat := c.index + 1

def ofNumber? (n : Nat) : Option Channel :=
  match n with
  | 1 => some .one
  | 2 => some .two
  | _ => none

/-- The channel with this number, where `subject` says what the number stands for. -/
def ofNumber (subject : Subject) (n : Nat) : Except RangeFault Channel :=
  match ofNumber? n with
  | some c => .ok c
  | none => .error ⟨subject, n⟩

end Channel

structure Loop where
  input : Channel
  output : Channel
  deriving DecidableEq

namespace Loop

/-- Registers are grouped by output, then by input. -/
def slot (l : Loop) : Nat := l.output.index * 2 + l.input.index

def all : List Loop := [⟨.one, .one⟩, ⟨.two, .one⟩, ⟨.one, .two⟩, ⟨.two, .two⟩]

theorem mem_all (l : Loop) : l ∈ all := by rcases l with ⟨_ | _, _ | _⟩ <;> decide

theorem slot_lt (l : Loop) : l.slot < 4 := by
  rcases l with ⟨_ | _, _ | _⟩ <;> decide

theorem slot_injective {l l' : Loop} (h : l.slot = l'.slot) : l = l' := by
  rcases l with ⟨_ | _, _ | _⟩ <;> rcases l' with ⟨_ | _, _ | _⟩ <;> first | rfl | contradiction

def ofNumbers (input output : Nat) : Except RangeFault Loop := do
  let i ← Channel.ofNumber .inputChannel input
  let o ← Channel.ofNumber .outputChannel output
  return ⟨i, o⟩

def label (l : Loop) : String :=
  "IN" ++ toString l.input.number ++ ":OUT" ++ toString l.output.number

end Loop

end LockServo

import LockServo.ParameterSet.Document
import LockServo.Proofs.Instrument.Effects
import LockServo.Proofs.ParameterSet.FeatureText
import LockServo.Proofs.Toml.Sections

/-!
# Parameter sets that were saved

The file of a set gives the set back, with one NaN among its numbers.
-/

namespace LockServo

open Toml
open Value (fields? required)

/-! ## Single fields -/

theorem Channel.ofValue?_canonical (c : Channel) : ofValue? c.toValue.canonical = some c := by
  cases c <;> rfl

theorem Loop.ofValue?_canonical (l : Loop) : ofValue? l.toValue.canonical = some l := by
  rcases l with ⟨_ | _, _ | _⟩ <;> rfl

theorem Channel.writable (depth : Nat) (c : Channel) : Writable depth c.toValue := by
  cases c <;> exact .leaf (.integer (by decide) (by decide))

theorem Loop.writable (depth : Nat) (l : Loop) : Writable (depth + 1) l.toValue := by
  refine .table (.of_names ["input", "output"] rfl (by decide) (by decide)) ?_
  simp only [List.forall_mem_cons]
  exact ⟨l.input.writable depth, l.output.writable depth, List.forall_mem_nil _⟩

theorem Pin.ofValue?_name (p : Pin) : ofValue? (.string p.name) = some p := by
  have all : ∀ q ∈ Pin.all, ofName? q.name = some q := by decide
  exact all p p.mem_all

theorem word?_toNat (n : UInt32) : word? (.integer n.toNat) = some n := by
  have small := n.toNat_lt
  simp [word?, Value.natural?, small]

theorem leaf_toNat (n : UInt32) : Leaf (.integer n.toNat) := by
  have small := n.toNat_lt
  exact .integer (by omega) (by omega)

/-! ## Loops and limits -/

namespace LoopParameters

def canonical (p : LoopParameters Binary64) : LoopParameters Binary64 :=
  { p with
    setpoint := p.setpoint.canonical
    proportional := p.proportional.canonical
    integral := p.integral.canonical
    relockLow := p.relockLow.canonical
    relockHigh := p.relockHigh.canonical
    relockStep := p.relockStep.canonical }

def numbers (p : LoopParameters Binary64) : List Binary64 :=
  [p.setpoint, p.proportional, p.integral, p.relockLow, p.relockHigh, p.relockStep]

theorem canonical_of_numbers {p : LoopParameters Binary64} (plain : ∀ x ∈ p.numbers, x.isNaN = false) :
    p.canonical = p := by
  simp only [numbers, List.forall_mem_cons] at plain
  simp only [canonical, Binary64.canonical_of_number, plain]

def names : List String :=
  ["id", "setpoint", "kp", "ki", "kd", "features", "relock_min", "relock_max", "relock_stepsize",
    "relock_input"]

theorem writable (depth : Nat) (p : LoopParameters Binary64) : Writable (depth + 2) p.toValue := by
  refine .table (.of_names names rfl (by decide) (by decide)) ?_
  simp only [List.forall_mem_cons]
  exact ⟨p.loop.writable depth, .leaf (.float _), .leaf (.float _), .leaf (.float _),
    .leaf (leaf_toNat _), .leaf (.string _), .leaf (.float _), .leaf (.float _), .leaf (.float _),
    .leaf (.string _), List.forall_mem_nil _⟩

/-- The values are variables, so that unfolding the reader does not run it on them. -/
theorem ofValue?_of_fields {v id kd features pin : Value} {p : LoopParameters Binary64}
    (fields : v.fields? names = some [some id, some (.float p.setpoint), some (.float p.proportional),
      some (.float p.integral), some kd, some features, some (.float p.relockLow),
      some (.float p.relockHigh), some (.float p.relockStep), some pin])
    (loop : Loop.ofValue? id = some p.loop) (derivative : word? kd = some p.derivative)
    (set : FeatureSet.ofValue? features = some p.features) (input : Pin.ofValue? pin = some p.relockPin) :
    ofValue? v = some p := by
  rw [names] at fields
  simp only [ofValue?, fields, Option.bind_eq_bind, Option.bind_some, required, Value.optional, Value.float?,
    loop, derivative, set, input]
  rfl

theorem ofValue?_canonical (p : LoopParameters Binary64) : ofValue? p.toValue.canonical = some p.canonical :=
  ofValue?_of_fields (p := p.canonical)
    (fields?_zip names [p.loop.toValue, .float p.setpoint, .float p.proportional, .float p.integral,
      .integer p.derivative.toNat, .string p.features.toText, .float p.relockLow, .float p.relockHigh,
      .float p.relockStep, .string p.relockPin.name] (by decide) rfl)
    p.loop.ofValue?_canonical (word?_toNat p.derivative) p.features.ofText?_toText
    p.relockPin.ofValue?_name

theorem canonical_toValue (p : LoopParameters Binary64) : p.canonical.toValue.canonical = p.toValue.canonical := by
  simp [toValue, canonical, Value.canonical, Value.plainEntries, Value.otherEntries, isPlain]

theorem apply_canonical (p : LoopParameters Binary64) : Action.SameEffect p.canonical.apply p.apply := by
  refine .bind (Action.setSetpoint_canonical p.loop p.setpoint) fun _ => ?_
  refine .bind (Action.setGain_canonical _ _ _ _ p.proportional) fun _ => ?_
  refine .bind (Action.setGain_canonical _ _ _ _ p.integral) fun _ => ?_
  refine .bind (.refl (Action.setDerivative p.loop p.derivative)) fun _ => ?_
  refine .bind (Action.setRelockBound_canonical _ _ p.relockLow) fun _ => ?_
  refine .bind (Action.setRelockBound_canonical _ _ p.relockHigh) fun _ => ?_
  refine .bind (Action.setGain_canonical _ _ _ _ p.relockStep) fun _ => ?_
  exact .refl _

end LoopParameters

namespace LimitParameters

def canonical (p : LimitParameters Binary64) : LimitParameters Binary64 :=
  { p with low := p.low.canonical, high := p.high.canonical }

def numbers (p : LimitParameters Binary64) : List Binary64 := [p.low, p.high]

theorem canonical_of_numbers {p : LimitParameters Binary64} (plain : ∀ x ∈ p.numbers, x.isNaN = false) :
    p.canonical = p := by
  simp only [numbers, List.forall_mem_cons] at plain
  simp only [canonical, Binary64.canonical_of_number, plain]

theorem writable (depth : Nat) (p : LimitParameters Binary64) : Writable (depth + 2) p.toValue := by
  refine .table (.of_names ["channel", "min", "max"] rfl (by decide) (by decide)) ?_
  simp only [List.forall_mem_cons]
  exact ⟨p.channel.writable _, .leaf (.float _), .leaf (.float _), List.forall_mem_nil _⟩

theorem ofValue?_canonical (p : LimitParameters Binary64) : ofValue? p.toValue.canonical = some p.canonical := by
  have fields : p.toValue.canonical.fields? ["channel", "min", "max"] = _ :=
    fields?_zip ["channel", "min", "max"] [p.channel.toValue, .float p.low, .float p.high] (by decide) rfl
  have channel := p.channel.ofValue?_canonical
  simp only [ofValue?, fields, List.map_cons, List.map_nil, Option.bind_eq_bind, Option.bind_some, required,
    channel, Value.canonical, Value.float?]
  rfl

theorem canonical_toValue (p : LimitParameters Binary64) :
    p.canonical.toValue.canonical = p.toValue.canonical := by
  simp [toValue, canonical, Value.canonical, Value.plainEntries, Value.otherEntries, isPlain]

theorem apply_canonical (p : LimitParameters Binary64) : Action.SameEffect p.canonical.apply p.apply :=
  .bind (Action.setLimit_canonical p.channel .low p.low) fun _ => Action.setLimit_canonical p.channel .high p.high

end LimitParameters

/-! ## Whole sets -/

theorem map_of_numbers {α : Type} {numbers : α → List Binary64} {back : α → α}
    (keeps : ∀ a, (∀ x ∈ numbers a, x.isNaN = false) → back a = a) {as : List α}
    (plain : ∀ x ∈ as.flatMap numbers, x.isNaN = false) : as.map back = as := by
  have same (a : α) (member : a ∈ as) : back a = id a :=
    keeps a fun x own => plain x (List.mem_flatMap.mpr ⟨a, member, own⟩)
  rw [List.map_congr_left same, List.map_id]

namespace ParameterSet

def canonical (p : ParameterSet Binary64) : ParameterSet Binary64 :=
  ⟨p.loops.map LoopParameters.canonical, p.limits.map LimitParameters.canonical⟩

def numbers (p : ParameterSet Binary64) : List Binary64 :=
  p.loops.flatMap LoopParameters.numbers ++ p.limits.flatMap LimitParameters.numbers

theorem canonical_of_numbers {p : ParameterSet Binary64} (plain : ∀ x ∈ p.numbers, x.isNaN = false) :
    p.canonical = p := by
  obtain ⟨inLoops, inLimits⟩ := List.forall_mem_append.mp plain
  have loops := map_of_numbers (fun _ => LoopParameters.canonical_of_numbers) inLoops
  have limits := map_of_numbers (fun _ => LimitParameters.canonical_of_numbers) inLimits
  rw [canonical, loops, limits]

theorem isDocument_toTable (p : ParameterSet Binary64) : IsDocument p.toTable where
  keys := .of_names ["loops", "limits"] rfl (by decide) (by decide)
  values := by
    simp only [toTable, List.forall_mem_cons]
    exact ⟨.records (fun _ => rfl) (LoopParameters.writable 78) p.loops,
      .records (fun _ => rfl) (LimitParameters.writable 78) p.limits, List.forall_mem_nil _⟩

theorem ofTable?_canonical (p : ParameterSet Binary64) : ofTable? p.toTable.canonical = some p.canonical := by
  have fields : Value.fields? ["loops", "limits"] (.table p.toTable.canonical) = _ :=
    fields?_zip ["loops", "limits"] [.array (p.loops.map LoopParameters.toValue),
      .array (p.limits.map LimitParameters.toValue)] (by decide) rfl
  simp only [ofTable?, fields, List.map_cons, List.map_nil, Option.bind_eq_bind, Option.bind_some,
    Value.optional, list?_canonical LoopParameters.ofValue?_canonical,
    list?_canonical LimitParameters.ofValue?_canonical]
  rfl

theorem canonical_toTable (p : ParameterSet Binary64) :
    p.canonical.toTable.canonical = p.toTable.canonical := by
  have loops := alike_records (fun _ => rfl) LoopParameters.canonical_toValue p.loops
  have limits := alike_records (fun _ => rfl) LimitParameters.canonical_toValue p.limits
  exact canonical_congr (.cons ⟨rfl, loops⟩ (.cons ⟨rfl, limits⟩ .nil))

theorem toText_canonical (p : ParameterSet Binary64) : p.canonical.toText = p.toText := by
  rw [toText, ← render_canonical p.canonical.isDocument_toTable, canonical_toTable,
    render_canonical p.isDocument_toTable, toText]

theorem save_eq (p : ParameterSet Binary64) :
    p.save (.ok ()) = ⟨.ok p.toText, [.parametersSaved]⟩ := rfl

theorem load_toText (p : ParameterSet Binary64) :
    load (.ok p.toText.toUTF8) = ⟨.ok p.canonical, [.parametersLoaded]⟩ := by
  have decoded : decodeFile ofTable? (.ok p.toText.toUTF8) = .ok p.canonical :=
    decodeFile_render p.isDocument_toTable p.ofTable?_canonical
  rw [load, decoded]
  rfl

/-! ## Applying a set that was read back -/

theorem apply_canonical (p : ParameterSet Binary64) : Action.SameEffect p.canonical.apply p.apply := by
  refine .bind (.forM LoopParameters.apply_canonical p.loops) fun _ => ?_
  exact .bind (.forM LimitParameters.apply_canonical p.limits) fun _ => .refl _

end ParameterSet

end LockServo

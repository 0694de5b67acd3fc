import LockServo.Instrument.Channels
import LockServo.Instrument.Loop
import LockServo.Proofs.Instrument.Actions
import LockServo.Proofs.Toml.Canonical

/-!
# Effects up to the choice of a NaN

A setter refuses every NaN before it does anything else, and the fault that it raises is worded the same
for all of them. So one NaN may stand in for another: the instrument, the events and the text of the
fault stay the same.
-/

namespace LockServo

/-! ## Conversions of a NaN -/

section

open Arithmetic

variable {ν : Type} [Arithmetic ν] {x : ν}

theorem Scale.encode_of_isNaN (h : isNaN x = true) (s : Scale ν) (c : Correction ν) (userOffset : ν) :
    s.encode c userOffset x = throw (.invalid .voltage x) := by
  unfold encode
  split
  · rfl
  · simp_all

theorem Gain.encode_of_isNaN (h : isNaN x = true) (quantity : Quantity) (factor : ν) (mask : UInt32) :
    encode quantity factor mask x = throw (.invalid quantity x) := by
  unfold encode
  split
  · rfl
  · simp_all

theorem Span.encodeInput_of_isNaN (h : isNaN x = true) :
    encodeInput x = throw (.invalid .absoluteVoltage x) := by
  unfold encodeInput
  split
  · rfl
  · contradiction

end

/-! ## Effects -/

namespace Fault

def canonical : Fault Binary64 → Fault Binary64
  | .invalid quantity x => .invalid quantity x.canonical
  | fault => fault

@[simp] theorem canonical_canonical (fault : Fault Binary64) : fault.canonical.canonical = fault.canonical := by
  cases fault with
  | invalid quantity x => exact congrArg (Fault.invalid quantity) x.canonical_canonical
  | _ => rfl

theorem message_canonical (fault : Fault Binary64) : fault.canonical.message = fault.message := by
  cases fault with
  | invalid quantity x => cases x <;> rfl
  | _ => rfl

end Fault

namespace Action

variable {α β : Type}

/-- What an action does to an instrument, with the fault up to the choice of a NaN. -/
def effect (x : Action Binary64 α) (i : Instrument Binary64) :
    Reporting (Except (Fault Binary64) α × Instrument Binary64) :=
  (fun (outcome, j) => (outcome.mapError Fault.canonical, j)) <$> x.perform i

theorem effect_bind (x : Action Binary64 α) (f : α → Action Binary64 β) (i : Instrument Binary64) :
    (x >>= f).effect i = x.effect i >>= fun
      | (.ok a, j) => (f a).effect j
      | (.error fault, j) => pure (.error fault.canonical, j) := by
  rw [effect, effect, perform_bind, map_bind, bind_map_left]
  refine congrArg _ (funext fun (outcome, j) => ?_)
  cases outcome with
  | ok a => rfl
  | error fault => simp [Except.mapError]

def SameEffect (x y : Action Binary64 α) : Prop := ∀ i, x.effect i = y.effect i

namespace SameEffect

theorem refl (x : Action Binary64 α) : SameEffect x x := fun _ => rfl

theorem bind {x y : Action Binary64 α} {f g : α → Action Binary64 β} (first : SameEffect x y)
    (later : ∀ a, SameEffect (f a) (g a)) : SameEffect (x >>= f) (y >>= g) := by
  intro i
  rw [effect_bind, effect_bind, first i]
  refine congrArg _ (funext fun (outcome, j) => ?_)
  cases outcome with
  | ok a => exact later a j
  | error fault => rfl

theorem forM {ι : Type} {f : ι → Action Binary64 Unit} {change : ι → ι}
    (step : ∀ a, SameEffect (f (change a)) (f a)) (as : List ι) :
    SameEffect ((as.map change).forM f) (as.forM f) := by
  induction as with
  | nil => exact refl _
  | cons a rest ih => exact (step a).bind fun _ => ih

/-- Two conversions that throw faults which differ by a NaN only. -/
theorem thrown {a b : Conversion Binary64 α} {fault other : Fault Binary64} (first : a = throw fault)
    (second : b = throw other) (same : fault.canonical = other.canonical) (f g : α → Action Binary64 β) :
    SameEffect (ofConversion a >>= f) (ofConversion b >>= g) := by
  have stop (fault : Fault Binary64) (f : α → Action Binary64 β) (i : Instrument Binary64) :
      (ofConversion (throw fault) >>= f).effect i = pure (.error fault.canonical, i) := rfl
  intro i
  rw [first, second, stop, stop, same]

/-- An action of a number that refuses both NaNs alike. -/
theorem canonical {set : Binary64 → Action Binary64 Unit}
    (refuses : SameEffect (set (.nan false)) (set (.nan true))) (x : Binary64) :
    SameEffect (set x.canonical) (set x) := by
  rcases x with (_ | _) | _ | _
  · exact refl _
  · exact refuses
  all_goals exact refl _

end SameEffect

theorem isNaN_nan (negative : Bool) : Arithmetic.isNaN (.nan negative : Binary64) = true := rfl

theorem setSetpoint_canonical (l : Loop) (volts : Binary64) :
    SameEffect (setSetpoint l volts.canonical) (setSetpoint l volts) := by
  refine .canonical ?_ volts
  exact .bind (.refl _) fun _ => .thrown (Scale.encode_of_isNaN (isNaN_nan false) ..)
    (Scale.encode_of_isNaN (isNaN_nan true) ..) rfl _ _

theorem setLimit_canonical (c : Channel) (b : Register.Bound) (volts : Binary64) :
    SameEffect (setLimit c b volts.canonical) (setLimit c b volts) := by
  refine .canonical ?_ volts
  exact .bind (.refl _) fun _ => .thrown (Scale.encode_of_isNaN (isNaN_nan false) ..)
    (Scale.encode_of_isNaN (isNaN_nan true) ..) rfl _ _

theorem setGain_canonical (quantity : Quantity) (factor : Rat) (parameter : Parameter) (f : Register.Field)
    (value : Binary64) : SameEffect (setGain quantity factor parameter f value.canonical)
      (setGain quantity factor parameter f value) := by
  refine .canonical ?_ value
  exact .thrown (Gain.encode_of_isNaN (isNaN_nan false) ..) (Gain.encode_of_isNaN (isNaN_nan true) ..) rfl _ _

theorem setRelockBound_canonical (parameter : Parameter) (f : Register.Field) (volts : Binary64) :
    SameEffect (setRelockBound parameter f volts.canonical) (setRelockBound parameter f volts) := by
  refine .canonical ?_ volts
  exact .thrown (Span.encodeInput_of_isNaN (isNaN_nan false)) (Span.encodeInput_of_isNaN (isNaN_nan true))
    rfl _ _

end Action

end LockServo

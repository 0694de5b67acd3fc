import LockServo.Conversion.Gain
import LockServo.Conversion.Span
import LockServo.Proofs.Binary64.Sign

/-!
# Conversions under sanitized corrections

A conversion does the same under a correction and under the sanitized one, and what it reports differs by
the unusable numbers that were replaced. Conversions without a correction replace none.
-/

namespace LockServo

open Arithmetic

variable {α β γ δ : Type}

/-! ## Unusable numbers -/

/-- Events of an unusable number in whose place another one was used. -/
def Event.isReplacement : Event → Bool
  | .unusableGain | .unusableOffset => true
  | _ => false

/-- Finite and above zero. -/
def Binary64.isUsableGain : Binary64 → Bool
  | .finite negative units _ => !negative && units != 0
  | .nan _ | .infinite _ => false

theorem Binary64.isFinite_of_isUsableGain {x : Binary64} (usable : x.isUsableGain = true) :
    x.isFinite = true := by
  cases x with
  | finite negative units bounded => rfl
  | nan negative => cases usable
  | infinite negative => cases usable

namespace Correction

/-- Whether the correction holds the unusable number that an event is about. -/
def Explains (k : Correction Binary64) : Event → Prop
  | .unusableGain => k.gain.isUsableGain = false
  | .unusableOffset => k.offset.isFinite = false
  | _ => False

theorem hasUsableGain_eq (k : Correction Binary64) : k.hasUsableGain = k.gain.isUsableGain := by
  have one (n : Nat) : decide ((0 : Int) < n) = (n != 0) := by
    cases n with
    | zero => rfl
    | succ n => simp
  rw [hasUsableGain, Binary64.ofNat_zero, Binary64.less_def]
  rcases k with ⟨_ | _ | ⟨_ | _, units, h⟩, offset⟩
  · rfl
  · rfl
  · exact one units
  · have below : ¬ (0 : Int) < -units := by omega
    exact decide_eq_false below

/-- One stands in for a gain that is a NaN, infinite, zero or below zero, and zero for an offset that is
not finite. -/
theorem sanitized_eq (k : Correction Binary64) : k.sanitized =
    ⟨if k.gain.isUsableGain then k.gain else ofNat 1, if k.offset.isFinite then k.offset else ofNat 0⟩ := by
  have finite : Arithmetic.isFinite k.offset = k.offset.isFinite := rfl
  rw [sanitized, usableGain, usableOffset, hasUsableGain_eq, finite]
  congr 1
  · split <;> rfl
  · split <;> rfl

theorem isUsableGain_sanitized (k : Correction Binary64) : k.sanitized.gain.isUsableGain = true := by
  rw [sanitized_eq]
  dsimp only
  split
  · assumption
  · decide +kernel

theorem finite_sanitized (k : Correction Binary64) :
    k.sanitized.gain.isFinite = true ∧ k.sanitized.offset.isFinite = true := by
  rw [sanitized_eq]
  dsimp only
  constructor
  · split
    · rename_i usable
      exact Binary64.isFinite_of_isUsableGain usable
    · decide +kernel
  · split
    · assumption
    · decide +kernel

theorem usableGain_sanitized (k : Correction Binary64) : k.sanitized.usableGain = pure k.sanitized.gain := by
  rw [usableGain, hasUsableGain_eq, isUsableGain_sanitized, if_pos rfl]

theorem usableOffset_sanitized (k : Correction Binary64) :
    k.sanitized.usableOffset = pure k.sanitized.offset := by
  have finite : Arithmetic.isFinite k.sanitized.offset = true := k.finite_sanitized.2
  rw [usableOffset, finite, if_pos rfl]

end Correction

theorem Scale.encode_eq {ν : Type} [Arithmetic ν] (s : Scale ν) (k : Correction ν) (userOffset volts : ν) :
    s.encode k userOffset volts =
      if isNaN volts || (!s.signed && less volts (ofNat 0)) then throw (.invalid .voltage volts)
      else do
        let offset ← k.usableOffset
        let gain ← k.usableGain
        let count ← encode.clamp s
          (roundAway ((volts - offset - userOffset) / s.fullScale * gain * ofNat s.span))
        return UInt32.ofInt count &&& s.mask := by
  unfold encode
  split <;> rfl

/-! ## Without a correction -/

/-- Reporting a saturation is no replacement. -/
theorem Conversion.replaces_nothing_ite {p : Prop} [Decidable p] {event : Event}
    (plain : event.isReplacement = false) (a : α) {rest : Conversion Binary64 α}
    (h : ∀ e ∈ rest.run.events, e.isReplacement = false) :
    ∀ e ∈ (if p then (do report event; return a) else rest : Conversion Binary64 α).run.events,
      e.isReplacement = false := by
  split
  · exact List.forall_mem_singleton.mpr plain
  · exact h

theorem Scale.clamp_replaces_nothing (s : Scale Binary64) (raw : Binary64) :
    ∀ e ∈ (encode.clamp s raw).run.events, e.isReplacement = false := by
  unfold encode.clamp
  exact Conversion.replaces_nothing_ite rfl s.highest
    (Conversion.replaces_nothing_ite rfl s.lowest (List.forall_mem_nil _))

theorem Gain.encode_replaces_nothing (quantity : Quantity) (factor : Binary64) (mask : UInt32)
    (value : Binary64) : ∀ e ∈ (encode quantity factor mask value).run.events, e.isReplacement = false := by
  unfold encode
  split
  · exact List.forall_mem_nil _
  · exact Conversion.replaces_nothing_ite rfl mask (List.forall_mem_nil _)

theorem Span.encodeInput_replaces_nothing (volts : Binary64) :
    ∀ e ∈ (encodeInput volts).run.events, e.isReplacement = false := by
  unfold encodeInput
  split
  · exact List.forall_mem_nil _
  · exact Conversion.replaces_nothing_ite rfl _ (List.forall_mem_nil _)

theorem Span.encodeOutput_replaces_nothing (volts : Binary64) :
    ∀ e ∈ (encodeOutput volts).run.events, e.isReplacement = false := by
  unfold encodeOutput
  split
  · exact List.forall_mem_nil _
  · exact Conversion.replaces_nothing_ite rfl _ (List.forall_mem_nil _)

/-! ## The same without reports of replacements -/

/-- The second computation gives what the first one does, up to a change, and reports the same but for
replacements. -/
structure Silences (change : α → β) (x : Reporting α) (y : Reporting β) : Prop where
  value : y.value = change x.value
  events : y.events = x.events.filter (!·.isReplacement)

/-- Silences a computation that reports no replacement but of some corrections' numbers. -/
structure SilencesUnder (causes : List (Correction Binary64)) (change : α → β) (x : Reporting α)
    (y : Reporting β) : Prop extends Silences change x y where
  explained : ∀ e ∈ x.events, e.isReplacement = true → ∃ k ∈ causes, k.Explains e

theorem Silences.bind {change : α → β} {change' : γ → δ} {x : Reporting α} {y : Reporting β}
    {f : α → Reporting γ} {g : β → Reporting δ} (first : Silences change x y)
    (later : Silences change' (f x.value) (g (change x.value))) : Silences change' (x >>= f) (y >>= g) where
  value := by rw [Logged.bind_value, first.value, later.value, Logged.bind_value]
  events := by
    rw [Logged.bind_events, first.value, first.events, later.events, ← List.filter_append,
      Logged.bind_events]

namespace SilencesUnder

variable {causes : List (Correction Binary64)} {change : α → β} {change' : γ → δ} {x : Reporting α}
  {y : Reporting β}

theorem bind {f : α → Reporting γ} {g : β → Reporting δ} (first : SilencesUnder causes change x y)
    (later : SilencesUnder causes change' (f x.value) (g (change x.value))) :
    SilencesUnder causes change' (x >>= f) (y >>= g) where
  toSilences := first.toSilences.bind later.toSilences
  explained e member := by
    rw [Logged.bind_events, List.mem_append] at member
    exact member.elim (first.explained e) (later.explained e)

theorem map {f : α → γ} {g : β → δ} (first : SilencesUnder causes change x y)
    (same : change' (f x.value) = g (change x.value)) : SilencesUnder causes change' (f <$> x) (g <$> y) where
  value := by rw [Logged.map_value, first.value, Logged.map_value, same]
  events := by rw [Logged.map_events, first.events, Logged.map_events]
  explained e member := first.explained e (by rwa [Logged.map_events] at member)

theorem congr {other : α → β} (h : SilencesUnder causes change x y) (same : change x.value = other x.value) :
    SilencesUnder causes other x y where
  value := h.value.trans same
  events := h.events
  explained := h.explained

/-- What replaces nothing silences itself. -/
theorem of_forall {x : Reporting α} (h : ∀ e ∈ x.events, e.isReplacement = false) :
    SilencesUnder causes id x x where
  value := rfl
  events := by
    symm
    refine List.filter_eq_self.mpr fun e member => ?_
    rw [h e member]
    rfl
  explained e member replacement := by
    rw [h e member] at replacement
    cases replacement

theorem pure (change : α → β) (a : α) :
    SilencesUnder causes change (Pure.pure a : Reporting α) (Pure.pure (change a)) where
  value := rfl
  events := rfl
  explained _ member := absurd member List.not_mem_nil

/-! ## The corrected conversions -/

/-- A number that is reported where it is replaced, against its replacement. -/
theorem replacement {usable : Bool} {event : Event} (replaces : event.isReplacement = true)
    (explained : usable = false → ∃ k ∈ causes, k.Explains event) (a default : α) :
    SilencesUnder causes id (if usable then Pure.pure a else do report event; return default)
      (Pure.pure (if usable then a else default)) := by
  cases usable with
  | true => exact .pure id a
  | false =>
    refine ⟨⟨rfl, ?_⟩, fun e member _ => ?_⟩
    · symm
      refine List.filter_eq_nil_iff.mpr (List.forall_mem_singleton.mpr ?_)
      rw [replaces]
      exact Bool.false_ne_true
    · rw [List.mem_singleton.mp member]
      exact explained rfl

variable {k : Correction Binary64} (cause : k ∈ causes)
include cause

theorem usableGain : SilencesUnder causes id k.usableGain k.sanitized.usableGain := by
  rw [k.usableGain_sanitized, k.sanitized_eq, Correction.usableGain, k.hasUsableGain_eq]
  refine replacement rfl (fun unusable => ?_) k.gain (ofNat 1)
  exact ⟨k, cause, unusable⟩

theorem usableOffset : SilencesUnder causes id k.usableOffset k.sanitized.usableOffset := by
  rw [k.usableOffset_sanitized, k.sanitized_eq]
  refine replacement rfl (fun unusable => ?_) k.offset (ofNat 0)
  exact ⟨k, cause, unusable⟩

theorem decode (s : Scale Binary64) (userOffset : Binary64) (word : UInt32) :
    SilencesUnder causes id (s.decode k userOffset word) (s.decode k.sanitized userOffset word) :=
  (usableGain cause).bind ((usableOffset cause).bind (.pure id _))

omit cause

theorem run_bind {x y : Conversion Binary64 α} {f g : α → Conversion Binary64 β}
    (first : SilencesUnder causes id x.run y.run)
    (later : ∀ a, SilencesUnder causes id (f a).run (g a).run) :
    SilencesUnder causes id (x >>= f).run (y >>= g).run := by
  rw [ExceptT.run_bind, ExceptT.run_bind]
  refine first.bind ?_
  cases x.run.value with
  | ok a => exact later a
  | error fault => exact .pure id _

theorem run_lift {x y : Reporting α} (h : SilencesUnder causes id x y) :
    SilencesUnder causes id (liftM x : Conversion Binary64 α).run (liftM y : Conversion Binary64 α).run :=
  h.map rfl

theorem clamp (s : Scale Binary64) (raw : Binary64) :
    SilencesUnder causes id (Scale.encode.clamp s raw).run (Scale.encode.clamp s raw).run :=
  .of_forall (s.clamp_replaces_nothing raw)

include cause

theorem encode (s : Scale Binary64) (userOffset volts : Binary64) :
    SilencesUnder causes id (s.encode k userOffset volts).run (s.encode k.sanitized userOffset volts).run := by
  rw [s.encode_eq, s.encode_eq]
  split
  · exact .pure id _
  · exact .run_bind (usableOffset cause).run_lift fun _ =>
      .run_bind (usableGain cause).run_lift fun _ => .run_bind (clamp s _) fun _ => .pure id _

end SilencesUnder

end LockServo

import LockServo.Proofs.Conversion.Values

/-!
# Reports of saturation

Which event, if any, an encoder reports because its value did not fit the field. A refused value has
none, and an accepted one has at most one.
-/

namespace LockServo

open Arithmetic

variable {ν α β : Type}

/-! ## The events -/

/-- Events of saturation are the warnings whose text ends so, whatever path another warning names. -/
theorem Event.isSaturation_iff (e : Event) :
    e.isSaturation = true ↔ e.severity = .warn ∧ "saturating".toList <:+ e.message.toList := by
  cases e with
  | settingsMissing path =>
    have tail : "\", using defaults".toList <:+ (settingsMissing path).message.toList :=
      ⟨("No configuration at \"" ++ path).toList, String.toList_append.symm⟩
    have other : ¬ "saturating".toList <:+ "\", using defaults".toList := by decide +kernel
    constructor
    · exact fun none => Bool.noConfusion none
    · rintro ⟨-, ending⟩
      exact absurd (List.suffix_of_suffix_length_le ending tail (by decide +kernel)) other
  | unusableGain | unusableOffset | voltageAbove | voltageBelow | gainAbove | absoluteOutside |
    analogOutputAbove => decide +kernel
  | _ => simp [isSaturation, severity]

def saturations (x : Reporting α) : List Event := x.events.filter Event.isSaturation

theorem saturations_bind (x : Reporting α) (f : α → Reporting β) :
    saturations (x >>= f) = saturations x ++ saturations (f x.value) :=
  List.filter_append _ _

theorem saturations_map (f : α → β) (x : Reporting α) :
    saturations (f <$> x) = saturations x := by
  rw [saturations, Logged.map_events, saturations]

theorem saturations_run_lift (x : Reporting α) (f : α → Conversion ν β) :
    saturations (liftM x >>= f : Conversion ν β).run = saturations x ++ saturations (f x.value).run := by
  change saturations ((Except.ok <$> x) >>= _) = _
  rw [saturations_bind, saturations_map]
  rfl

theorem saturations_run_bind_pure (x : Conversion ν α) (f : α → β) :
    saturations (x >>= fun a => pure (f a) : Conversion ν β).run = saturations x.run := by
  rw [ExceptT.run_bind, saturations_bind]
  cases x.run.value with
  | ok a => exact List.append_nil _
  | error fault => exact List.append_nil _

/-! ## The encoders -/

variable [Arithmetic ν]

namespace Correction

theorem saturations_usableGain (c : Correction ν) : saturations c.usableGain = [] := by
  unfold usableGain
  split <;> rfl

theorem saturations_usableOffset (c : Correction ν) : saturations c.usableOffset = [] := by
  unfold usableOffset
  split <;> rfl

end Correction

namespace Scale

variable (s : Scale ν)

def overshoot? (raw : ν) : Option Event :=
  if less (ofInt s.highest) raw then some .voltageAbove
  else if less raw (ofInt s.lowest) then some .voltageBelow
  else none

theorem saturations_clamp (raw : ν) :
    saturations (encode.clamp s raw).run = (s.overshoot? raw).toList := by
  unfold encode.clamp overshoot?
  split
  · rfl
  · split <;> rfl

theorem saturations_encode (c : Correction ν) (userOffset volts : ν) :
    saturations (s.encode c userOffset volts).run =
      if isNaN volts || (!s.signed && less volts (ofNat 0)) then []
      else (s.overshoot? (roundAway (s.place c userOffset volts))).toList := by
  unfold encode
  split
  · rfl
  · change saturations (ExceptT.run (liftM c.usableOffset >>= fun _ => liftM c.usableGain >>= _)) = _
    rw [saturations_run_lift, saturations_run_lift, saturations_run_bind_pure, saturations_clamp,
      c.saturations_usableOffset, c.saturations_usableGain]
    rfl

end Scale

namespace Gain

def overshoot? (factor : ν) (mask : UInt32) (value : ν) : Option Event :=
  if less (ofNat mask.toNat) (roundAway (value * factor)) then some .gainAbove else none

theorem saturations_encode (quantity : Quantity) (factor : ν) (mask : UInt32) (value : ν) :
    saturations (encode quantity factor mask value).run =
      if isNaN value || less value (ofNat 0) then [] else (overshoot? factor mask value).toList := by
  unfold encode overshoot?
  split
  · rfl
  · dsimp only
    split <;> rfl

end Gain

namespace Span

def inputOvershoot? (volts : ν) : Option Event :=
  let place := slowInput.position volts
  if less place (ofNat 0) || !less place (ofNat (slowInput.top + 1)) then some .absoluteOutside
  else none

theorem saturations_encodeInput (volts : ν) :
    saturations (encodeInput volts).run =
      if isNaN volts then [] else (inputOvershoot? volts).toList := by
  unfold encodeInput inputOvershoot?
  split
  · rfl
  · dsimp only
    split <;> rfl

def outputOvershoot? (volts : ν) : Option Event :=
  if less (ofNat slowOutput.top) (slowOutput.position volts) then some .analogOutputAbove else none

theorem saturations_encodeOutput (volts : ν) :
    saturations (encodeOutput volts).run =
      if isNaN volts || less volts (ofNat 0) then [] else (outputOvershoot? volts).toList := by
  unfold encodeOutput outputOvershoot?
  split
  · rfl
  · dsimp only
    split <;> rfl

end Span

end LockServo

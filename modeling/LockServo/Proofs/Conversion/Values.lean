import LockServo.Conversion.Gain
import LockServo.Conversion.Span

/-!
# Conversions without their reports

What each encoder returns, apart from the events on the way: which values it refuses, and otherwise the
count as a plain function of the value. Only the sanitized correction enters.
-/

namespace LockServo

open Arithmetic

variable {ν : Type} [Arithmetic ν]

theorem toNat_le_of_masked {mask n : UInt32} (masked : n &&& mask = n) : n.toNat ≤ mask.toNat := by
  rw [← masked, UInt32.toNat_and]
  exact Nat.and_le_right

namespace Scale

variable (s : Scale ν) (c : Correction ν) (userOffset : ν)

/-- The count before it is rounded and held in the range. -/
def place (volts : ν) : ν :=
  (volts - c.sanitized.offset - userOffset) / s.fullScale * c.sanitized.gain * ofNat s.span

def hold (raw : ν) : Int :=
  if less (ofInt s.highest) raw then s.highest
  else if less raw (ofInt s.lowest) then s.lowest
  else truncate (-0x8000000000000000) 0x7FFFFFFFFFFFFFFF raw

def code (volts : ν) : UInt32 := UInt32.ofInt (s.hold (roundAway (s.place c userOffset volts))) &&& s.mask

theorem clamp_value (raw : ν) : (encode.clamp s raw).run.value = .ok (s.hold raw) := by
  unfold encode.clamp hold
  split
  · rfl
  · split <;> rfl

theorem encode_value (volts : ν) :
    (s.encode c userOffset volts).run.value =
      if isNaN volts || (!s.signed && less volts (ofNat 0)) then .error (.invalid .voltage volts)
      else .ok (s.code c userOffset volts) := by
  unfold encode
  split
  · rfl
  · change (ExceptT.run (encode.clamp s _ >>= _)).value = _
    simp only [ExceptT.run_bind, Logged.bind_value, clamp_value]
    rfl

/-- The voltage of a count before an unsigned field holds it at zero. -/
def volts (word : UInt32) : ν :=
  ofInt (s.count word) / ofNat s.span / c.sanitized.gain * s.fullScale + c.sanitized.offset +
    userOffset

theorem decode_value (word : UInt32) :
    (s.decode c userOffset word).value =
      if s.signed then s.volts c userOffset word
      else clampNonNegative (s.volts c userOffset word) :=
  rfl

theorem unipolar_decode_value (word : UInt32) :
    (unipolar.decode c userOffset word).value =
      clampNonNegative (unipolar.volts c userOffset word) :=
  unipolar.decode_value c userOffset word

theorem unipolar_encode_value (volts : ν) :
    (unipolar.encode c userOffset volts).run.value =
      if isNaN volts || less volts (ofNat 0) then .error (.invalid .voltage volts)
      else .ok (unipolar.code c userOffset volts) :=
  unipolar.encode_value c userOffset volts

theorem unipolar_mask : (unipolar : Scale ν).mask = 0x3FFF := by
  change (1 <<< UInt32.ofNat 14) - 1 = (0x3FFF : UInt32)
  decide

theorem unipolar_count {n : UInt32} (masked : n &&& 0x3FFF = n) : (unipolar : Scale ν).count n = n.toNat := by
  change ((n &&& (unipolar : Scale ν).mask).toNat : Int) = n.toNat
  rw [unipolar_mask, masked]

end Scale

namespace Gain

def code (factor : ν) (mask : UInt32) (value : ν) : UInt32 :=
  let raw := roundAway (value * factor)
  if less (ofNat mask.toNat) raw then mask else UInt32.ofInt (truncate 0 0xFFFFFFFF raw)

theorem encode_value (quantity : Quantity) (factor : ν) (mask : UInt32) (value : ν) :
    (encode quantity factor mask value).run.value =
      if isNaN value || less value (ofNat 0) then .error (.invalid quantity value)
      else .ok (code factor mask value) := by
  unfold encode code
  split
  · rfl
  · dsimp only
    split <;> rfl

end Gain

namespace Span

theorem slack_bounds : 0 < slack ∧ slack ≤ 1 / 2 := by decide +kernel

structure FromZero (s : Span) : Prop where
  low : s.low = 0
  high : onGrid s.high = s.high
  one_le : 1 ≤ s.high
  le_eight : s.high ≤ 8
  top_pos : 0 < s.top
  top_le : s.top ≤ 4095

theorem FromZero.high_pos {s : Span} (z : s.FromZero) : 0 < s.high :=
  Std.lt_of_lt_of_le (by decide) z.one_le

theorem slowInput_fromZero : slowInput.FromZero where
  low := rfl
  high := by decide +kernel
  one_le := by decide
  le_eight := by decide
  top_pos := by decide
  top_le := by decide

theorem slowOutput_fromZero : slowOutput.FromZero where
  low := rfl
  high := by decide +kernel
  one_le := by decide +kernel
  le_eight := by decide +kernel
  top_pos := by decide
  top_le := by decide

def inputCode (volts : ν) : UInt32 :=
  UInt32.ofNat (min (wholeCount (slowInput.position volts)) slowInput.top)

theorem toNat_inputCode (volts : ν) :
    (inputCode volts).toNat = min (wholeCount (slowInput.position volts)) slowInput.top :=
  Nat.mod_eq_of_lt (Nat.lt_of_le_of_lt (Nat.min_le_right _ _) (by decide))

theorem encodeInput_value (volts : ν) :
    (encodeInput volts).run.value =
      if isNaN volts then .error (.invalid .absoluteVoltage volts)
      else .ok (inputCode volts) := by
  unfold encodeInput inputCode
  split
  · rfl
  · dsimp only
    split <;> rfl

def outputCode (volts : ν) : UInt32 :=
  if less (ofNat slowOutput.top) (slowOutput.position volts) then UInt32.ofNat slowOutput.top
  else UInt32.ofNat (wholeCount (slowOutput.position volts))

theorem encodeOutput_value (volts : ν) :
    (encodeOutput volts).run.value =
      if isNaN volts || less volts (ofNat 0) then .error (.invalid .analogOutput volts)
      else .ok (outputCode volts) := by
  unfold encodeOutput outputCode
  split
  · rfl
  · dsimp only
    split <;> rfl

end Span

end LockServo

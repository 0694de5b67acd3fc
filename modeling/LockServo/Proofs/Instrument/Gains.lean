import LockServo.Proofs.Binary64.Accuracy
import LockServo.Proofs.Conversion.RoundTrip
import LockServo.Proofs.Instrument.Readings

/-!
# Gains read back

A gain is written back to the count that it was read from, whatever its factor is, and a gain that is set
reads back within half a count. Setters of gains therefore undo nothing when they are given the readings.
-/

namespace LockServo

open Arithmetic Accurate Register

variable {ν : Type} [Arithmetic ν]

namespace Gain

variable [Accurate ν] {factor : ν} {f : ℚ} {mask : UInt32}

/-- Half a count for the encoder, and a small part of a count for the roundings. -/
theorem run_encode_near (hf : toRat? factor = some f) (positive : 0 < f) (small : mask ≤ 0xFFFFFF)
    (fits : Fits ν (mask.toNat / f)) {value : ν} {x : ℚ} (hv : toRat? value = some x) (nonneg : 0 ≤ x)
    (le : x * f ≤ mask.toNat) (quantity : Quantity) :
    ∃ n y, (encode quantity factor mask value).run = pure (.ok n) ∧ toRat? (decode factor n) = some y ∧
      |y - x| ≤ (1 / 2 + 1 / 2 ^ 20) / f := by
  have wide : mask.toNat ≤ 0xFFFFFF := small
  have wide' : (mask.toNat : ℚ) ≤ 0xFFFFFF := by exact_mod_cast wide
  have product_nonneg : 0 ≤ x * f := by positivity
  obtain ⟨p, hp, rounded, above⟩ := near_mul (2 ^ 24) hv hf (by norm_num) (by norm_num)
    (by rw [abs_le]; constructor <;> linarith)
  obtain ⟨_, _⟩ := abs_le.mp rounded
  have p_nonneg := above product_nonneg
  have whole := abs_nearestInt_sub_le p
  have held : nearestInt p ≤ mask.toNat := by
    by_contra! beyond
    have far := le_of_lt_nearestInt beyond
    push_cast at far
    linarith
  obtain ⟨n, hn⟩ : ∃ n : UInt32, (n.toNat : ℤ) = nearestInt p :=
    ⟨_, toNat_ofInt (nearestInt_nonneg p_nonneg) (by omega)⟩
  have hn' : (nearestInt p : ℚ) = n.toNat := by exact_mod_cast hn.symm
  have n_le : n.toNat ≤ mask.toNat := by omega
  have raw : toRat? (roundAway (value * factor)) = some (n.toNat : ℚ) := by
    rw [roundAway_eq hp (by rw [abs_le]; constructor <;> linarith), hn']
  have fits' : Fits ν (n.toNat / f) := by
    refine fits_of_le ?_ fits
    rw [abs_of_nonneg (by positivity), abs_of_nonneg (by positivity)]
    gcongr
  obtain ⟨y, hy, near, -⟩ := decode_near hf positive (n := n) (by omega) fits'
  refine ⟨n, y, run_encode_of_roundAway hv nonneg raw n_le quantity, hy, ?_⟩
  rw [hn'] at whole
  rw [le_div_iff₀ positive]
  calc |y - x| * f = |y * f - x * f| := by rw [← sub_mul, abs_mul, abs_of_pos positive]
    _ ≤ |y * f - n.toNat| + |n.toNat - x * f| := abs_sub_le _ _ _
    _ ≤ |y * f - n.toNat| + (|n.toNat - p| + |p - x * f|) := by
        gcongr
        exact abs_sub_le _ _ _
    _ ≤ 1 / 2 ^ 28 + (1 / 2 + 2 ^ 24 / 2 ^ 52) := by gcongr
    _ ≤ 1 / 2 + 1 / 2 ^ 20 := by norm_num

end Gain

/-! ## Setters of gains -/

namespace Action

variable {i : Instrument ν} {f : Field} {factor : ℚ}

theorem perform_setGain (h : i.FullSize) (adjustable : f.isAdjustable = true) {quantity : Quantity} {v : ν}
    {n : UInt32} (encodes : (Gain.encode quantity (ofRat factor) f.mask v).run = pure (.ok n))
    (parameter : Parameter) :
    (setGain quantity factor parameter f v).perform i =
      ⟨(.ok (), i.put (.number f adjustable) n), [.setting parameter]⟩ := by
  have converted : (ofConversion (Gain.encode quantity (ofRat factor) f.mask v)).perform i = pure (.ok n, i) := by
    rw [perform_ofConversion, encodes, map_pure]
  rw [setGain, perform_bind_of_ok converted, perform_bind, perform_ofReporting]
  simp only [map_eq_pure_bind, bind_assoc, pure_bind, perform_writeNumber h f adjustable]
  rfl

/-- A gain that is read and set again changes nothing. -/
theorem perform_gain_setGain [Accurate ν] (h : i.FullSize) (adjustable : f.isAdjustable = true)
    (mask : f.mask = 0xFFFFFF) (low : 2 ≤ factor) (high : factor ≤ 2 ^ 12) (quantity : Quantity)
    (parameter : Parameter) :
    (gain factor f >>= setGain quantity factor parameter f).perform i =
      ⟨(.ok (), i), [.setting parameter]⟩ := by
  have masked : i.value (.number f adjustable) &&& f.mask = i.value (.number f adjustable) :=
    Place.read_mask (.number f adjustable) _
  rw [mask] at masked
  have encodes := Gain.run_encode_decode_ofRat (ν := ν) low high (toNat_le_of_masked masked) quantity
  rw [perform_bind_of_ok (perform_gain h factor f adjustable),
    perform_setGain h adjustable (by rw [mask, encodes]), Instrument.put_value h]

end Action

/-- Counts survive being read as gains and written back, in every accurate number system and for every
factor under which none overflows, and values survive being written and read back but for half a count. The
gains of a loop are set to what they read without any change. -/
theorem gains_survive_readback (ν : Type) [Arithmetic ν] [Accurate ν] :
    (∀ (factor : ν) (f : ℚ) (mask : UInt32) (quantity : Quantity), toRat? factor = some f → 0 < f →
      mask ≤ 0xFFFFFF → Fits ν (mask.toNat / f) →
      (∀ n ≤ mask, (Gain.encode quantity factor mask (Gain.decode factor n)).run = pure (.ok n)) ∧
      ∀ (value : ν) (x : ℚ), toRat? value = some x → 0 ≤ x → x * f ≤ mask.toNat →
        ∃ n y, (Gain.encode quantity factor mask value).run = pure (.ok n) ∧
          toRat? (Gain.decode factor n) = some y ∧ |y - x| ≤ (1 / 2 + 1 / 2 ^ 20) / f) ∧
    ∀ i : Instrument ν, i.FullSize → ∀ l : Loop,
      (Action.proportional l >>= Action.setProportional l).perform i =
        ⟨(.ok (), i), [.setting .proportional]⟩ ∧
      (Action.integral l >>= Action.setIntegral l).perform i = ⟨(.ok (), i), [.setting .integral]⟩ ∧
      (Action.relockStep l >>= Action.setRelockStep l).perform i =
        ⟨(.ok (), i), [.setting .relockStep]⟩ := by
  refine ⟨fun factor f mask quantity hf positive small fits => ⟨fun n le => ?_, ?_⟩,
    fun i h l => ⟨?_, ?_, ?_⟩⟩
  · refine Gain.run_encode_decode hf positive (fits_of_le ?_ fits) le small quantity
    rw [abs_of_nonneg (by positivity), abs_of_nonneg (by positivity)]
    gcongr
    exact UInt32.le_iff_toNat_le.mp le
  · intro value x hv nonneg le
    exact Gain.run_encode_near hf positive small fits hv nonneg le quantity
  · exact Action.perform_gain_setGain h rfl rfl (by decide +kernel) (by decide +kernel) _ _
  · exact Action.perform_gain_setGain h rfl rfl (by decide +kernel) (by decide +kernel) _ _
  · exact Action.perform_gain_setGain h rfl rfl (by decide +kernel) (by decide +kernel) _ _

/-- The largest count under the factor of the integral gain, which is no decimal, and a gain of one. -/
theorem gains_survive_readback_in_doubles :
    let factor : Binary64 := ofRat Gain.integralFactor
    let i : Instrument Binary64 := (Instrument.blank .ideal).put (.number (.integral ⟨.two, .two⟩)) 0xFFFFFF
    (Gain.encode .integral factor 0xFFFFFF (Gain.decode factor 0xFFFFFF)).run = pure (.ok 0xFFFFFF) ∧
    (∃ n y, (Gain.encode .integral factor 0xFFFFFF (ofRat 1)).run = pure (.ok n) ∧
      toRat? (Gain.decode factor n) = some y ∧ |y - 1| ≤ (1 / 2 + 1 / 2 ^ 20) / Gain.integralFactor) ∧
    (Action.integral ⟨.two, .two⟩ >>= Action.setIntegral ⟨.two, .two⟩).perform i =
      ⟨(.ok (), i), [.setting .integral]⟩ := by
  intro factor i
  obtain ⟨counts, actions⟩ := gains_survive_readback Binary64
  have positive : 0 < Gain.integralFactor := by decide +kernel
  have moderate : ((0xFFFFFF : UInt32).toNat : ℚ) / Gain.integralFactor ≤ 2 ^ 100 := by decide +kernel
  have fits : Fits Binary64 ((0xFFFFFF : UInt32).toNat / Gain.integralFactor) := by
    refine fits_of_le ?_ fits_moderate
    rw [abs_of_nonneg (div_nonneg (Nat.cast_nonneg _) positive.le), abs_of_pos (by positivity)]
    exact moderate
  obtain ⟨recode, accuracy⟩ := counts factor Gain.integralFactor 0xFFFFFF .integral (by decide +kernel)
    positive (UInt32.le_refl _) fits
  have full : i.FullSize := Instrument.put_fullSize (Instrument.blank_fullSize _) _ _
  exact ⟨recode _ (UInt32.le_refl _), accuracy (ofRat 1) 1 (by decide +kernel) one_pos.le (by decide +kernel),
    (actions i full _).2.1⟩

end LockServo

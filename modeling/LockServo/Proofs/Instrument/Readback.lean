import LockServo.Proofs.Instrument.Flagging
import LockServo.Proofs.Instrument.Ranges
import LockServo.Proofs.ParameterSet.Acceptance

/-!
# Readings of a fresh instrument

Counts within their bounds read back inside the physical range. Where no correction enters, the reading
written back is stored as the count that it was read from.
-/

namespace LockServo

open Accurate Arithmetic Register

/-! ## Readings written back -/

namespace Register.Place

/-- The setter of a place, called with an answer of its getter. -/
def writeBack? {ν : Type} : Place → Answer ν → Option (Setter ν)
  | .number (.derivative l) _, .word n => some (.derivative l n)
  | .number (.relockPin l) _, .pin q => some (.relockPin l q)
  | .switch l f, .switch on => some (.feature l f on)
  | p, .quantity v => p.setter? v
  | _, _ => none

end Register.Place

namespace Instrument

theorem stores_of_writeBack {ν : Type} [Arithmetic ν] (i : Instrument ν) {p : Place}
    (recoded : (p.recode i.calibration i.calibration (i.value p)).run.value = .ok (i.value p)) :
    ∃ s : Setter ν, p.writeBack? (p.answer i.calibration (i.value p)) = some s ∧
      s.calibrationAfter i.calibration = i.calibration ∧
      (s.stores i.calibration).run.value = .ok [(p, i.value p)] := by
  have stored := fun parameter : Parameter => Setter.stored_value recoded p parameter
  cases p with
  | switch l f =>
    refine ⟨_, rfl, rfl, ?_⟩
    rw [Setter.stores, level_value_switch]
    exact stored .feature
  | number f adjustable =>
    cases f with
    | relockPin l =>
      obtain ⟨k, watched, count⟩ := relockPin_eq (i := i) l
      refine ⟨.relockPin l (i.relockPin l), rfl, rfl, ?_⟩
      rw [watched, Setter.stores, Setter.stores.watched, count]
      exact stored .relockPin
    | features | slowInput | fastInput | fastOutput => cases adjustable
    | _ => exact ⟨_, rfl, rfl, stored _⟩

namespace Orderly

variable {i : Instrument Binary64}

theorem recode (h : i.Orderly) {p : Place} (plain : p.correction? i.calibration = none) :
    (p.recode i.calibration i.calibration (i.value p)).run.value = .ok (i.value p) := by
  cases parameter : p.isParameter with
  | true => exact Place.recode_of_no_correction _ _ parameter plain (value_and_mask p)
  | false =>
    obtain ⟨k, rfl⟩ : ∃ k, p = .number (.slowOutput k) := by
      cases p with
      | switch => cases parameter
      | number f adjustable => cases f <;> first | exact ⟨_, rfl⟩ | cases parameter
    have accepted := (Place.unsigned_quantity i.calibration (f := .slowOutput k) rfl rfl
      (i.value (.number (.slowOutput k)))).not_refused
    change (Span.encodeOutput (Span.slowOutput.voltage _)).run.value = _
    rw [Span.encodeOutput_value]
    refine (if_neg (Bool.eq_false_iff.mp accepted)).trans ?_
    exact congrArg Except.ok (Span.outputCode_voltage (h.within (.number (.slowOutput k))))

/-- Where no correction enters, a reading written back leaves all words as they are. -/
theorem writeBack (h : i.Orderly) {p : Place} (plain : p.correction? i.calibration = none) :
    ∃ (answer : Answer Binary64) (s : Setter Binary64) (after : Instrument Binary64),
      (p.query.perform.perform i).value = (.ok answer, i) ∧ p.writeBack? answer = some s ∧
      (s.perform.perform i).value = (.ok (), after) ∧ after.Agrees i := by
  obtain ⟨s, written, keeps, stored⟩ := stores_of_writeBack i (h.recode plain)
  have performed : (s.perform.perform i).value = (.ok (), i.put p (i.value p)) := by
    rw [s.perform_eq h.sound.fullSize, Logged.map_value, stored, Setter.result,
      Setter.settle_eq_putAll keeps]
    rfl
  rw [put_value h.sound.fullSize] at performed
  exact ⟨_, s, i, p.query_value h.sound.fullSize, written, performed, .refl i⟩

end Orderly

end Instrument

/-! ## Readings inside the physical range -/

theorem Binary64.Unsigned.toRat?_nonneg {x : Binary64} (h : x.Unsigned) {a : ℚ} (hx : x.toRat? = some a) :
    0 ≤ a := by
  cases h with
  | infinite => cases hx
  | finite m hm =>
    rw [toRat?_finite] at hx
    obtain rfl := Option.some.inj hx
    exact div_nonneg m.cast_nonneg one_cast_pos.le

theorem Span.FromZero.voltage_le_last {s : Span} {t : ℚ} (z : s.FromZero)
    (last : toRat? (s.voltage (UInt32.ofNat s.top) : Binary64) = some t) (near : s.high ≤ t + 1 / 2 ^ 20)
    {n : UInt32} (small : n.toNat ≤ s.top) {r : ℚ} (hr : toRat? (s.voltage n : Binary64) = some r) :
    r ≤ t := by
  rcases Nat.lt_or_ge n.toNat s.top with below | full
  · have positive : (0 : ℚ) < s.top := by exact_mod_cast z.top_pos
    have top_le : (s.top : ℚ) ≤ 4095 := by exact_mod_cast z.top_le
    have count : (n.toNat : ℚ) + 1 ≤ s.top := by exact_mod_cast below
    have one_le := z.one_le
    obtain ⟨v, hv, close, -⟩ := z.voltage_near (ν := Binary64) (small.trans (Nat.le_mul_of_pos_left _ two_pos))
    obtain rfl : v = r := Option.some.inj (hv.symm.trans hr)
    have part : (n.toNat : ℚ) / s.top ≤ 1 - 1 / 4095 := by
      rw [div_le_iff₀ positive]
      linarith
    have scaled : (n.toNat : ℚ) / s.top * s.high ≤ (1 - 1 / 4095) * s.high := by gcongr
    have := (abs_le.mp close).2
    linarith
  · have same : n = UInt32.ofNat s.top := by
      rw [← Nat.le_antisymm small full, UInt32.ofNat_toNat]
    rw [same, last] at hr
    exact (Option.some.inj hr).ge

namespace Instrument.Orderly

variable {i : Instrument Binary64}

theorem voltage_bounds {s : Span} {t : ℚ} (z : s.FromZero)
    (last : toRat? (s.voltage (UInt32.ofNat s.top) : Binary64) = some t) (near : s.high ≤ t + 1 / 2 ^ 20)
    {n : UInt32} (small : n.toNat ≤ s.top) (unsigned : (s.voltage n : Binary64).Unsigned) :
    ∃ r, (s.voltage n : Binary64).toRat? = some r ∧ 0 ≤ r ∧ r ≤ t := by
  obtain ⟨r, hr, -⟩ := z.voltage_near (ν := Binary64) (small.trans (Nat.le_mul_of_pos_left _ two_pos))
  exact ⟨r, hr, unsigned.toRat?_nonneg hr, z.voltage_le_last last near small hr⟩

theorem slowOutput_bounds (h : i.Orderly) (k : Fin 4) :
    ∃ (v : Binary64) (r : ℚ), ((Query.pinValue (.output k)).perform.perform i).value = (.ok (.quantity v), i) ∧
      v.toRat? = some r ∧ 0 ≤ r ∧ r ≤ onGrid (18 / 10) := by
  have last : toRat? (Span.slowOutput.voltage (UInt32.ofNat 156) : Binary64) = some (onGrid (18 / 10)) := by
    decide +kernel
  have near : Span.slowOutput.high ≤ onGrid (18 / 10) + 1 / 2 ^ 20 := by decide +kernel
  obtain ⟨r, hr, low, high⟩ := voltage_bounds Span.slowOutput_fromZero last near
    (h.within (.number (.slowOutput k)))
    (Place.unsigned_quantity i.calibration (f := .slowOutput k) rfl rfl _)
  exact ⟨_, r, (Place.number (.slowOutput k)).query_value h.sound.fullSize, hr, low, high⟩

theorem relockBound_bounds (h : i.Orderly) (l : Loop) {q : Query}
    (bound : q = .relockLow l ∨ q = .relockHigh l) :
    ∃ (v : Binary64) (r : ℚ), (q.perform.perform i).value = (.ok (.quantity v), i) ∧
      v.toRat? = some r ∧ 0 ≤ r ∧ r ≤ 7 := by
  have last : toRat? (Span.slowInput.voltage (UInt32.ofNat 4095) : Binary64) = some 7 := by
    decide +kernel
  have near : Span.slowInput.high ≤ 7 + 1 / 2 ^ 20 := by decide +kernel
  have bounds := fun (n : UInt32) (small : n.toNat ≤ 4095) =>
    voltage_bounds Span.slowInput_fromZero last near small
      (Place.unsigned_quantity i.calibration (f := .relockLow l) rfl rfl n)
  rcases bound with rfl | rfl
  · obtain ⟨r, value⟩ := bounds _ (h.within (.number (.relockLow l)))
    exact ⟨_, r, (Place.number (.relockLow l)).query_value h.sound.fullSize, value⟩
  · obtain ⟨r, value⟩ := bounds _ (h.within (.number (.relockHigh l)))
    exact ⟨_, r, (Place.number (.relockHigh l)).query_value h.sound.fullSize, value⟩

end Instrument.Orderly

/-- Whatever calls are made on a fresh instrument, every field holds at most its bound and every other
word is zero. So the pins read at most 1.8 volts, relock bounds read between zero and seven, and any
reading that no correction enters can be written back without effect. -/
theorem fresh_instruments_stay_in_range (c : Calibration Binary64) (calls : List (Call Binary64)) :
    let i := (Call.run calls (Instrument.simulated c).value).value.2
    (∀ f : Field, ∃ n ≤ f.most, (i.word f.block f.offset).toNat = n * 2 ^ f.shift.toNat) ∧
    (∀ (b : Block) (offset : Nat), b.IsWord offset → (∀ f : Field, f.block = b → f.offset ≠ offset) →
      i.word b offset = 0) ∧
    (∀ k : Fin 4, ∃ (v : Binary64) (r : ℚ),
      ((Query.pinValue (.output k)).perform.perform i).value = (.ok (.quantity v), i) ∧
      v.toRat? = some r ∧ 0 ≤ r ∧ r ≤ onGrid (18 / 10)) ∧
    (∀ (l : Loop) (q : Query), q = .relockLow l ∨ q = .relockHigh l → ∃ (v : Binary64) (r : ℚ),
      (q.perform.perform i).value = (.ok (.quantity v), i) ∧ v.toRat? = some r ∧ 0 ≤ r ∧ r ≤ 7) ∧
    ∀ p : Place, p.correction? i.calibration = none →
      ∃ (answer : Answer Binary64) (s : Setter Binary64) (after : Instrument Binary64),
        (p.query.perform.perform i).value = (.ok answer, i) ∧ p.writeBack? answer = some s ∧
        (s.perform.perform i).value = (.ok (), after) ∧
        ∀ (b : Block) (offset : Nat), b.IsWord offset → after.word b offset = i.word b offset := by
  intro i
  have orderly : i.Orderly := by
    have run : i = Call.afterAll calls (.blank c) :=
      congrArg Prod.snd (Call.run_value calls (Instrument.blank_fullSize c))
    rw [run]
    exact (Instrument.blank_orderly c).afterAll calls
  refine ⟨orderly.word_le, fun b offset inside => orderly.reserved_word_eq_zero inside,
    orderly.slowOutput_bounds, fun l q => orderly.relockBound_bounds l, fun p plain => ?_⟩
  obtain ⟨answer, s, after, read, written, performed, agrees⟩ := orderly.writeBack plain
  exact ⟨answer, s, after, read, written, performed, agrees.word⟩

/-- An infinite voltage stops a pin at the last count, a set that ends in a refusal leaves its first loop's
bound at the top, and that bound is written back without effect under the record reloaded since. -/
theorem fresh_instruments_stay_in_range_at_the_edges :
    let l : Loop := ⟨.two, .two⟩
    let parameters : LoopParameters Binary64 :=
      ⟨l, .infinite false, .ofRat 1, .infinite false, 0xFFFFFFFF, ⟨0xFF⟩, .infinite true, .infinite false,
        .zero true, .input 3⟩
    let calls : List (Call Binary64) :=
      [.store (.pinValue (.output 2) (.infinite false)),
        .apply ⟨[parameters, { parameters with setpoint := .nan true }], []⟩,
        .exchange ⟨⟨⟨.nan false, .infinite true⟩, .ideal⟩, ⟨.ideal, .ideal⟩⟩]
    let i := (Call.run calls (Instrument.simulated .ideal).value).value.2
    (i.word .analog 0x28).toNat = 156 * 2 ^ 16 ∧ (i.word .pid 0x6C).toNat = 4095 ∧
      i.word .pid 0x04 = 0 ∧
      ∃ (answer : Answer Binary64) (s : Setter Binary64) (after : Instrument Binary64),
        ((Query.relockHigh l).perform.perform i).value = (.ok answer, i) ∧
        (s.perform.perform i).value = (.ok (), after) ∧ after.word .pid 0x6C = i.word .pid 0x6C := by
  intro l parameters calls i
  obtain ⟨-, reserved, -, -, writtenBack⟩ := fresh_instruments_stay_in_range .ideal calls
  have unnamed : ∀ f : Field, f.block = .pid → f.offset ≠ 0x04 := by
    intro f
    cases f <;> simp [Field.block, Field.offset, wordSize] <;> omega
  obtain ⟨answer, s, after, read, -, performed, kept⟩ := writtenBack (.number (.relockHigh l)) rfl
  exact ⟨by decide +kernel, by decide +kernel, reserved .pid 0x04 (by decide) unnamed, answer, s, after,
    read, performed, kept .pid 0x6C (by decide)⟩

end LockServo

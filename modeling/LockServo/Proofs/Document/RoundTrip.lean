import LockServo.Proofs.Binary64.Interchange
import LockServo.Proofs.ParameterSet.Saved
import LockServo.Proofs.Settings.Saved

/-!
# Saving and loading

Nothing that is saved is lost but which NaN a number was. Strings, lists, words, pins and every bit of a
set of features come back as they were, and so does every bit of a number, zeros and infinities with
their signs. What is loaded is saved as the same text, and a loaded set does to an instrument what the
saved one does.
-/

namespace LockServo

namespace Binary64

theorem toBits_canonical (bits : UInt64) : (ofBits bits.toNat).canonical.toBits =
    if (ofBits bits.toNat).isNaN then 0x7FF8000000000000 else bits.toNat := by
  split
  · rename_i h
    rw [canonical_of_isNaN h]
    rfl
  · rename_i h
    have number := Bool.eq_false_iff.mpr h
    rw [canonical_of_number number, toBits_ofBits bits number]

theorem forall_number_or_exists_isNaN (numbers : List Binary64) :
    (∀ x ∈ numbers, x.isNaN = false) ∨ ∃ x ∈ numbers, x.isNaN = true := by
  refine (em (∃ x ∈ numbers, x.isNaN = true)).symm.imp_left fun none x member => ?_
  exact Bool.eq_false_iff.mpr fun h => none ⟨x, member, h⟩

end Binary64

/-- What is loaded is what was saved, with one NaN among its numbers. -/
theorem load_after_save :
    (∀ s : Settings, ∃ text, s.save (.ok ()) = .ok text ∧
      Settings.load (.ok text.toUTF8) = .ok s.canonical ∧ s.canonical.save (.ok ()) = .ok text ∧
      (s.canonical = s ∨ ∃ x ∈ s.calibration.numbers, x.isNaN = true)) ∧
    (∀ p : ParameterSet Binary64, ∃ text, p.save (.ok ()) = ⟨.ok text, [.parametersSaved]⟩ ∧
      ParameterSet.load (.ok text.toUTF8) = ⟨.ok p.canonical, [.parametersLoaded]⟩ ∧
      p.canonical.save (.ok ()) = ⟨.ok text, [.parametersSaved]⟩ ∧
      (p.canonical = p ∨ ∃ x ∈ p.numbers, x.isNaN = true) ∧
      ∀ i : Instrument Binary64, p.canonical.apply.effect i = p.apply.effect i) ∧
    (∀ bits : UInt64, (Binary64.ofBits bits.toNat).canonical.toBits =
      if (Binary64.ofBits bits.toNat).isNaN then 0x7FF8000000000000 else bits.toNat) ∧
    ∀ fault : Fault Binary64, fault.canonical.message = fault.message := by
  refine ⟨fun s => ⟨s.toText, rfl, s.load_toText, ?_, ?_⟩,
    fun p => ⟨p.toText, p.save_eq, p.load_toText, ?_, ?_, p.apply_canonical⟩, Binary64.toBits_canonical,
    Fault.message_canonical⟩
  · exact congrArg Except.ok s.toText_canonical
  · exact (Binary64.forall_number_or_exists_isNaN _).imp_left Settings.canonical_of_numbers
  · rw [p.canonical.save_eq, p.toText_canonical]
  · exact (Binary64.forall_number_or_exists_isNaN _).imp_left ParameterSet.canonical_of_numbers

/-- A gain that is a NaN with a sign is saved without it. -/
theorem signed_nan_is_not_loaded :
    let s : Settings := { calibration := ⟨⟨⟨.nan true, .nan false⟩, .ideal⟩, ⟨.ideal, .ideal⟩⟩ }
    Settings.load (.ok s.toText.toUTF8) ≠ .ok s := by
  intro s same
  rw [s.load_toText] at same
  have gain := congrArg (·.calibration.input.one.gain) (Except.ok.inj same)
  cases gain

end LockServo

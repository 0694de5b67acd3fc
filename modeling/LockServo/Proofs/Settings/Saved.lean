import LockServo.Proofs.Toml.Sections
import LockServo.Settings.Document

/-!
# Settings that were saved

The file of some settings gives them back, with one NaN among the numbers of the calibration. Saving
those writes the same file again.
-/

namespace LockServo

open Toml

namespace Correction

def canonical (c : Correction Binary64) : Correction Binary64 := ⟨c.gain.canonical, c.offset.canonical⟩

def numbers (c : Correction Binary64) : List Binary64 := [c.gain, c.offset]

theorem canonical_of_numbers {c : Correction Binary64} (plain : ∀ x ∈ c.numbers, x.isNaN = false) :
    c.canonical = c := by
  simp only [numbers, List.forall_mem_cons] at plain
  simp only [canonical, Binary64.canonical_of_number, plain]

theorem writable (depth : Nat) (c : Correction Binary64) : Writable (depth + 1) c.toValue := by
  refine .table (.of_names ["gain", "offset"] rfl (by decide) (by decide)) ?_
  simp only [List.forall_mem_cons]
  exact ⟨.leaf (.float _), .leaf (.float _), List.forall_mem_nil _⟩

end Correction

namespace Calibration

def canonical (c : Calibration Binary64) : Calibration Binary64 where
  input := ⟨c.input.one.canonical, c.input.two.canonical⟩
  output := ⟨c.output.one.canonical, c.output.two.canonical⟩

def numbers (c : Calibration Binary64) : List Binary64 :=
  (c.input.toList ++ c.output.toList).flatMap Correction.numbers

theorem canonical_of_numbers {c : Calibration Binary64} (plain : ∀ x ∈ c.numbers, x.isNaN = false) :
    c.canonical = c := by
  have same (k : Correction Binary64) (member : k ∈ c.input.toList ++ c.output.toList) :
      k.canonical = k :=
    Correction.canonical_of_numbers fun x own => plain x (List.mem_flatMap.mpr ⟨k, member, own⟩)
  simp only [PerChannel.toList, List.cons_append, List.nil_append, List.forall_mem_cons] at same
  simp only [canonical, same]

theorem writable (depth : Nat) (c : Calibration Binary64) : Writable (depth + 2) c.toValue := by
  refine .table (.of_names ["input", "output"] rfl (by decide) (by decide)) ?_
  have side (corrections : List (Correction Binary64)) :
      Writable (depth + 1) (.array (corrections.map Correction.toValue)) :=
    .records (fun _ => rfl) (Correction.writable depth) corrections
  simp only [List.forall_mem_cons]
  exact ⟨side _, side _, List.forall_mem_nil _⟩

end Calibration

namespace Settings

def canonical (s : Settings) : Settings := { s with calibration := s.calibration.canonical }

theorem canonical_of_numbers {s : Settings} (plain : ∀ x ∈ s.calibration.numbers, x.isNaN = false) :
    s.canonical = s := by
  rw [canonical, Calibration.canonical_of_numbers plain]

theorem isDocument_toTable (s : Settings) : IsDocument s.toTable where
  keys := .of_names ["shared", "mapping", "calibration"] rfl (by decide) (by decide)
  values := by
    have shared : HasKeys [("log_level", .string s.severity.key), ("service_name", .string s.serviceName)] :=
      .of_names ["log_level", "service_name"] rfl (by decide) (by decide)
    have mapping : HasKeys [("device", .string s.device), ("simulate", .boolean s.simulate)] :=
      .of_names ["device", "simulate"] rfl (by decide) (by decide)
    simp only [toTable, List.forall_mem_cons]
    refine ⟨.table shared ?_, .table mapping ?_, s.calibration.writable 78, List.forall_mem_nil _⟩
    all_goals simp only [List.forall_mem_cons]
    · exact ⟨.leaf (.string _), .leaf (.string _), List.forall_mem_nil _⟩
    · exact ⟨.leaf (.string _), .leaf (.boolean _), List.forall_mem_nil _⟩

/-- No field of the settings moves in its document, as every table stands behind what is not one. -/
theorem canonical_toTable (s : Settings) : s.toTable.canonical = s.canonical.toTable := rfl

theorem ofTable?_toTable (s : Settings) : ofTable? s.toTable = some s := by
  obtain ⟨severity, serviceName, device, simulate, calibration⟩ := s
  cases severity <;> rfl

theorem load_toText (s : Settings) : load (.ok s.toText.toUTF8) = .ok s.canonical :=
  decodeFile_render s.isDocument_toTable (s.canonical_toTable ▸ s.canonical.ofTable?_toTable)

theorem toText_canonical (s : Settings) : s.canonical.toText = s.toText := by
  rw [toText, ← canonical_toTable, render_canonical s.isDocument_toTable, toText]

end Settings

end LockServo

import Mathlib.Data.List.TakeWhile
import LockServo.Feature

/-!
# Sets of features as texts

A set is written as its parts with bars between them, and blanks on both sides of a bar. No part holds a
bar or a blank, so splitting at the bars and trimming the pieces gives the parts back.
-/

namespace LockServo

namespace Text

variable {separator : Char} {s before after : List Char}

theorem splitAt_of_notMem (alone : separator ∉ s) : splitAt separator s = [s] := by
  induction s with
  | nil => rfl
  | cons c rest ih =>
    obtain ⟨other, later⟩ := not_or.mp (List.mem_cons.not.mp alone)
    rw [splitAt, if_neg (Ne.symm other), ih later]

theorem splitAt_append (alone : separator ∉ s) (rest : List Char) :
    splitAt separator (s ++ separator :: rest) = s :: splitAt separator rest := by
  induction s with
  | nil => rw [List.nil_append, splitAt, if_pos rfl]
  | cons c s ih =>
    obtain ⟨other, later⟩ := not_or.mp (List.mem_cons.not.mp alone)
    rw [List.cons_append, splitAt, if_neg (Ne.symm other), ih later]

theorem trimLeft_blanks (blank : ∀ c ∈ before, isBlank c = true) (rest : List Char) :
    trimLeft (before ++ rest) = trimLeft rest :=
  List.dropWhile_append_of_pos blank

theorem trimLeft_solid (nonempty : s ≠ []) (solid : ∀ c ∈ s, isBlank c = false) (rest : List Char) :
    trimLeft (s ++ rest) = s ++ rest := by
  obtain ⟨c, s, rfl⟩ := List.exists_cons_of_ne_nil nonempty
  have first := solid c List.mem_cons_self
  rw [List.cons_append, trimLeft, List.dropWhile_cons_of_neg (by simp [first])]

theorem trim_blanks (nonempty : s ≠ []) (solid : ∀ c ∈ s, isBlank c = false)
    (blankBefore : ∀ c ∈ before, isBlank c = true) (blankAfter : ∀ c ∈ after, isBlank c = true) :
    trim (before ++ s ++ after) = s := by
  have back : trimLeft s.reverse = s.reverse := by
    simpa using trimLeft_solid (List.reverse_ne_nil_iff.mpr nonempty)
      (fun c member => solid c (List.mem_reverse.mp member)) []
  rw [trim, List.append_assoc, trimLeft_blanks blankBefore, trimLeft_solid nonempty solid,
    List.reverse_append, trimLeft_blanks (fun c member => blankAfter c (List.mem_reverse.mp member)),
    back, List.reverse_reverse]

theorem trim_ne_nil {c : Char} (member : c ∈ s) (solid : isBlank c = false) : trim s ≠ [] := by
  intro empty
  have blank : ∀ d ∈ (trimLeft s).reverse, isBlank d = true :=
    List.dropWhile_eq_nil_iff.mp (List.reverse_eq_nil_iff.mp empty)
  have inside : c ∈ s.takeWhile isBlank ++ trimLeft s := by
    rwa [trimLeft, List.takeWhile_append_dropWhile]
  have c_blank : isBlank c = true :=
    (List.mem_append.mp inside).elim List.mem_takeWhile_imp
      fun later => blank c (List.mem_reverse.mpr later)
  rw [solid] at c_blank
  cases c_blank

end Text

namespace FeatureSet

open Text

def IsPart (s : List Char) : Prop := s ≠ [] ∧ s.all (!isBlank ·) = true ∧ '|' ∉ s

instance (s : List Char) : Decidable (IsPart s) := inferInstanceAs (Decidable (_ ∧ _))

theorem IsPart.solid {s : List Char} (h : IsPart s) : ∀ c ∈ s, isBlank c = false := by
  simpa using h.2.1

/-- Splitting at the bars undoes joining by them. -/
theorem trim_splitAt_intercalate {parts : List (List Char)} (nonempty : parts ≠ [])
    (are : ∀ s ∈ parts, IsPart s) {before : List Char} (blank : ∀ c ∈ before, c = ' ') :
    (splitAt '|' (before ++ List.intercalate [' ', '|', ' '] parts)).map trim = parts := by
  have blankBefore : ∀ c ∈ before, isBlank c = true := fun c member => blank c member ▸ rfl
  have blankAfter : ∀ c ∈ [' '], isBlank c = true := List.all_eq_true.mp (by decide)
  have noBarBefore : '|' ∉ before := fun member => absurd (blank _ member) (by decide)
  induction parts generalizing before with
  | nil => exact absurd rfl nonempty
  | cons s rest ih =>
    have solid := (are s List.mem_cons_self).solid
    obtain ⟨filled, -, noBar⟩ := are s List.mem_cons_self
    cases rest with
    | nil =>
      have trimmed := trim_blanks filled solid blankBefore (List.forall_mem_nil _)
      rw [List.append_nil] at trimmed
      rw [List.intercalate_singleton, splitAt_of_notMem (by simp [noBarBefore, noBar]), List.map_singleton,
        trimmed]
    | cons next rest =>
      have split : before ++ List.intercalate [' ', '|', ' '] (s :: next :: rest) =
          (before ++ s ++ [' ']) ++ '|' :: ([' '] ++ List.intercalate [' ', '|', ' '] (next :: rest)) := by
        simp [List.intercalate_cons_cons]
      rw [split, splitAt_append (by simp [noBarBefore, noBar]), List.map_cons,
        trim_blanks filled solid blankBefore blankAfter,
        ih (List.cons_ne_nil _ _) (fun t member => are t (List.mem_cons_of_mem _ member)) (by simp)
          blankAfter (by decide)]

/-! ## Parts -/

theorem isPart_flag (f : Feature) : IsPart f.flag.toList := by
  cases f <;> decide

theorem part?_flag (f : Feature) : part? f.flag.toList = some ⟨f.bit⟩ := by
  cases f <;> decide

def number (rest : UInt8) : String := "0x" ++ String.ofList (Nat.toDigits 16 rest.toNat)

/-- Only eight numbers are written, one for each choice among the three highest bits. -/
theorem number_spec : ∀ k : Fin 8, IsPart (number (.ofNat (32 * k))).toList ∧
    part? (number (.ofNat (32 * k))).toList = some ⟨.ofNat (32 * k)⟩ := by
  decide +kernel

theorem exists_rest (s : FeatureSet) : ∃ k : Fin 8, s.bits &&& ~~~known = .ofNat (32 * k) := by
  have all : ∀ n : Fin 256, ∃ k : Fin 8, UInt8.ofNat n &&& ~~~known = .ofNat (32 * k) := by
    decide +kernel
  simpa using all ⟨s.bits.toNat, s.bits.toNat_lt⟩

theorem isPart_number (s : FeatureSet) : IsPart (number (s.bits &&& ~~~known)).toList := by
  obtain ⟨k, rest⟩ := s.exists_rest
  exact rest ▸ (number_spec k).1

theorem part?_number (s : FeatureSet) :
    part? (number (s.bits &&& ~~~known)).toList = some ⟨s.bits &&& ~~~known⟩ := by
  obtain ⟨k, rest⟩ := s.exists_rest
  exact rest ▸ (number_spec k).2

def parts (s : FeatureSet) : List String :=
  (Feature.all.filter s.contains).map Feature.flag ++
    if s.bits &&& ~~~known = 0 then [] else [number (s.bits &&& ~~~known)]

theorem isPart_of_mem_parts {s : FeatureSet} {part : String} (member : part ∈ s.parts) :
    IsPart part.toList := by
  rcases List.mem_append.mp member with named | numbered
  · obtain ⟨f, -, rfl⟩ := List.mem_map.mp named
    exact isPart_flag f
  · split at numbered
    · cases numbered
    · rw [List.mem_singleton.mp numbered]
      exact s.isPart_number

/-! ## Reading a text back -/

def add (t : FeatureSet) (part : List Char) : Option FeatureSet := (part? part).map t.union

theorem foldlM_flags (fs : List Feature) (t : FeatureSet) :
    (fs.map Feature.flag).foldlM (fun t part => t.add part.toList) t =
      some (fs.foldl (fun t f => t.union ⟨f.bit⟩) t) := by
  induction fs generalizing t with
  | nil => rfl
  | cons f rest ih =>
    rw [List.map_cons, List.foldlM_cons, add, part?_flag]
    exact ih (t.union ⟨f.bit⟩)

/-- A set is the union of its features and of its other bits. -/
theorem union_rest (s : FeatureSet) :
    ((Feature.all.filter s.contains).foldl (fun t f => t.union ⟨f.bit⟩) empty).union
      ⟨s.bits &&& ~~~known⟩ = s := by
  have all : ∀ n : Fin 256,
      ((Feature.all.filter (mk (.ofNat n)).contains).foldl (fun t f => t.union ⟨f.bit⟩) empty).union
        ⟨UInt8.ofNat n &&& ~~~known⟩ = ⟨.ofNat n⟩ := by
    decide +kernel
  simpa using all ⟨s.bits.toNat, s.bits.toNat_lt⟩

theorem foldlM_parts (s : FeatureSet) :
    s.parts.foldlM (fun t part => t.add part.toList) empty = some s := by
  rw [parts, List.foldlM_append, foldlM_flags, Option.bind_eq_bind, Option.bind_some]
  have whole := s.union_rest
  split
  · rename_i known
    rw [known, union, UInt8.or_zero] at whole
    exact congrArg some whole
  · rw [List.foldlM_cons, add, part?_number]
    exact congrArg some whole

theorem toList_toText (s : FeatureSet) :
    s.toText.toList = List.intercalate [' ', '|', ' '] (s.parts.map String.toList) := by
  rw [toText, String.toList_intercalate]
  rfl

theorem trim_toText_ne_nil {s : FeatureSet} (nonempty : s.parts ≠ []) : trim s.toText.toList ≠ [] := by
  obtain ⟨part, rest, cons⟩ := List.exists_cons_of_ne_nil nonempty
  have isPart := isPart_of_mem_parts (cons ▸ List.mem_cons_self : part ∈ s.parts)
  obtain ⟨c, member⟩ := List.exists_mem_of_ne_nil _ isPart.1
  refine trim_ne_nil (c := c) ?_ (isPart.solid c member)
  rw [toList_toText, cons]
  cases rest with
  | nil => simpa using member
  | cons next rest => simp [List.intercalate_cons_cons, member]

/-- A set is read back from its text with all its bits. -/
theorem ofText?_toText (s : FeatureSet) : ofText? s.toText = some s := by
  have gathered := s.foldlM_parts
  by_cases nothing : s.parts = []
  · rw [nothing] at gathered
    have blank : s.toText.toList = [] := by rw [toList_toText, nothing]; rfl
    rw [ofText?, blank]
    exact gathered
  · have solid : ∀ part ∈ s.parts.map String.toList, IsPart part := by
      intro _ member
      obtain ⟨part, inside, rfl⟩ := List.mem_map.mp member
      exact isPart_of_mem_parts inside
    have pieces := trim_splitAt_intercalate (by simpa using nothing) solid (List.forall_mem_nil _)
    rw [List.nil_append, ← toList_toText] at pieces
    have read : ((splitAt '|' s.toText.toList).map trim).foldlM add empty = some s := by
      rw [pieces, List.foldlM_map]
      exact gathered
    rw [List.foldlM_map] at read
    rw [ofText?, if_neg (by simpa using trim_toText_ne_nil nothing)]
    exact read

end FeatureSet

end LockServo

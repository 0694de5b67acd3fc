import Mathlib.Data.List.Basic
import LockServo.Document.Decode
import LockServo.Toml.Rendering

/-!
# Documents that are written

A table is written when its keys are distinct and bare and each value is a leaf, a table or a list of
tables, to a depth that a reader follows. It comes back in canonical form: with one NaN, and in each
table what stands on lines of its own before the tables. The text does not tell the two forms apart.
-/

namespace LockServo

namespace Binary64

/-- The doubles with one NaN among them. -/
def canonical : Binary64 → Binary64
  | .nan _ => .nan false
  | x => x

theorem canonical_of_isNaN {x : Binary64} (h : x.isNaN = true) : x.canonical = .nan false := by
  cases x with
  | nan negative => rfl
  | _ => cases h

theorem canonical_of_number {x : Binary64} (number : x.isNaN = false) : x.canonical = x := by
  cases x with
  | nan negative => cases number
  | _ => rfl

@[simp] theorem canonical_canonical (x : Binary64) : x.canonical.canonical = x.canonical := by
  cases x <;> rfl

@[simp] theorem toDocument_canonical (x : Binary64) : x.canonical.toDocument = x.toDocument := by
  cases x <;> rfl

end Binary64

namespace Value

open Toml (isPlain)

mutual

/-- The value that a document gives back. -/
def canonical : Value → Value
  | .float x => .float x.canonical
  | .array items => .array (canonicalItems items)
  | .table entries => .table (plainEntries entries ++ otherEntries entries)
  | v => v

def canonicalItems : List Value → List Value
  | [] => []
  | v :: rest => v.canonical :: canonicalItems rest

def plainEntries : List (String × Value) → List (String × Value)
  | [] => []
  | (key, v) :: rest =>
    if isPlain v then (key, v.canonical) :: plainEntries rest else plainEntries rest

def otherEntries : List (String × Value) → List (String × Value)
  | [] => []
  | (key, v) :: rest =>
    if isPlain v then otherEntries rest else (key, v.canonical) :: otherEntries rest

end

theorem canonicalItems_eq_map (items : List Value) : canonicalItems items = items.map canonical := by
  induction items with
  | nil => rfl
  | cons v rest ih => rw [canonicalItems, ih, List.map_cons]

theorem plainEntries_eq_map (entries : Table) :
    plainEntries entries = (entries.filter (isPlain ·.2)).map fun e => (e.1, e.2.canonical) := by
  induction entries with
  | nil => rfl
  | cons e rest ih =>
    obtain ⟨key, v⟩ := e
    rw [plainEntries, ih]
    cases plain : isPlain v <;> simp [plain]

theorem otherEntries_eq_map (entries : Table) :
    otherEntries entries = (entries.filter (!isPlain ·.2)).map fun e => (e.1, e.2.canonical) := by
  induction entries with
  | nil => rfl
  | cons e rest ih =>
    obtain ⟨key, v⟩ := e
    rw [otherEntries, ih]
    cases plain : isPlain v <;> simp [plain]

end Value

def Table.canonical (t : Table) : Table := Value.plainEntries t ++ Value.otherEntries t

namespace Toml

def IsBareKey (key : String) : Prop := key.toList ≠ [] ∧ key.toList.all isBare = true

instance (key : String) : Decidable (IsBareKey key) := inferInstanceAs (Decidable (_ ∧ _))

theorem IsBareKey.letters {key : String} (h : IsBareKey key) : ∀ c ∈ key.toList, isBare c = true :=
  List.all_eq_true.mp h.2

structure HasKeys (t : Table) : Prop where
  distinct : (t.map Prod.fst).Nodup
  bare : ∀ e ∈ t, IsBareKey e.1

theorem HasKeys.of_names {t : Table} (names : List String) (named : t.map Prod.fst = names)
    (distinct : names.Nodup) (bare : ∀ n ∈ names, IsBareKey n) : HasKeys t where
  distinct := named ▸ distinct
  bare e member := bare e.1 (named ▸ List.mem_map_of_mem member)

inductive Leaf : Value → Prop
  | string (text : String) : Leaf (.string text)
  | integer {n : Int} (low : -((1 <<< 127 : Nat) : Int) ≤ n) (high : n < ((1 <<< 128 : Nat) : Int)) :
    Leaf (.integer n)
  | float (x : Binary64) : Leaf (.float x)
  | boolean (b : Bool) : Leaf (.boolean b)
  | nothing : Leaf (.array [])

/-- A value whose tables nest at most so deep. -/
inductive Writable : Nat → Value → Prop
  | leaf {depth : Nat} {v : Value} (leaf : Leaf v) : Writable depth v
  | table {depth : Nat} {entries : Table} (keys : HasKeys entries)
    (values : ∀ e ∈ entries, Writable depth e.2) : Writable (depth + 1) (.table entries)
  | tables {depth : Nat} {tables : List Table} (nonempty : tables ≠ []) (keys : ∀ t ∈ tables, HasKeys t)
    (values : ∀ t ∈ tables, ∀ e ∈ t, Writable depth e.2) :
    Writable (depth + 1) (.array (tables.map .table))

/-- A list of records, which may have none. -/
theorem Writable.records {α : Type} {toValue : α → Value} (tables : ∀ a, isTable (toValue a) = true)
    {depth : Nat} (records : ∀ a, Writable (depth + 1) (toValue a)) (items : List α) :
    Writable (depth + 1) (.array (items.map toValue)) := by
  have entries (a : α) : ∃ t, toValue a = .table t ∧ HasKeys t ∧ ∀ e ∈ t, Writable depth e.2 := by
    have table := tables a
    have record := records a
    generalize toValue a = v at table record
    cases record with
    | leaf leaf => cases leaf <;> cases table
    | table keys values => exact ⟨_, rfl, keys, values⟩
    | tables => cases table
  choose table eq keys values using entries
  cases items with
  | nil => exact .leaf .nothing
  | cons a rest =>
    have same : (a :: rest).map toValue = ((a :: rest).map table).map .table := by
      rw [List.map_map]
      exact List.map_congr_left fun a _ => eq a
    rw [same]
    refine .tables (by simp) (fun t member => ?_) fun t member => ?_
    all_goals obtain ⟨a, -, rfl⟩ := List.mem_map.mp member
    · exact keys a
    · exact values a

structure IsDocument (t : Table) : Prop where
  keys : HasKeys t
  values : ∀ e ∈ t, Writable depthLimit e.2

/-! ## One record in both forms -/

theorem canonical_perm (t : Table) :
    t.canonical.Perm (t.map fun e => (e.1, e.2.canonical)) := by
  rw [Table.canonical, Value.plainEntries_eq_map, Value.otherEntries_eq_map, ← List.map_append]
  exact (List.filter_append_perm (isPlain ·.2) t).map _

theorem map_fst_canonical_perm (t : Table) : (t.canonical.map Prod.fst).Perm (t.map Prod.fst) := by
  have keys := (canonical_perm t).map Prod.fst
  rwa [List.map_map] at keys

theorem find?_cons (e : String × Value) (t : Table) (key : String) :
    Table.find? (e :: t) key = if e.1 = key then some e.2 else Table.find? t key := by
  by_cases same : e.1 = key <;> simp [Table.find?, same]

theorem find?_eq_some_iff {t : Table} (distinct : (t.map Prod.fst).Nodup) {key : String} {v : Value} :
    t.find? key = some v ↔ (key, v) ∈ t := by
  induction t with
  | nil => simp [Table.find?]
  | cons e rest ih =>
    obtain ⟨name, w⟩ := e
    obtain ⟨other, later⟩ := List.nodup_cons.mp distinct
    rw [find?_cons, List.mem_cons, ← ih later]
    split
    · rename_i same
      subst same
      have absent : Table.find? rest name ≠ some v := fun found =>
        other (List.mem_map.mpr ⟨_, (ih later).mp found, rfl⟩)
      simp [absent, eq_comm]
    · rename_i same
      simp [Ne.symm same]

theorem find?_canonical {t : Table} (distinct : (t.map Prod.fst).Nodup) (key : String) :
    t.canonical.find? key = (t.find? key).map Value.canonical := by
  have distinct' := (map_fst_canonical_perm t).nodup_iff.mpr distinct
  ext v
  rw [find?_eq_some_iff distinct', (canonical_perm t).mem_iff, Option.map_eq_some_iff]
  simp [find?_eq_some_iff distinct]

/-- The canonical form has the fields of the record, each in canonical form. -/
theorem fields?_canonical {t : Table} {names : List String} (distinct : (t.map Prod.fst).Nodup)
    (named : ∀ e ∈ t, e.1 ∈ names) : (Value.table t).canonical.fields? names =
      some (names.map fun n => (t.find? n).map Value.canonical) := by
  have keys : (t.canonical.all fun e => names.contains e.1 || e.2.isReadable) = true := by
    rw [List.all_eq_true]
    intro e member
    have key := (map_fst_canonical_perm t).mem_iff.mp (List.mem_map_of_mem member)
    obtain ⟨e', inside, same⟩ := List.mem_map.mp key
    simp [← same, named e' inside]
  change (if t.canonical.all _ then _ else _) = _
  rw [if_pos keys]
  exact congrArg some (List.map_congr_left fun n _ => find?_canonical distinct n)

/-- A record with one value for each name. -/
theorem fields?_zip (names : List String) (values : List Value) (distinct : names.Nodup)
    (length : values.length = names.length) : (Value.table (names.zip values)).canonical.fields? names =
      some (values.map fun v => some v.canonical) := by
  have keys : (names.zip values).map Prod.fst = names := List.map_fst_zip (by omega)
  have distinct' : ((names.zip values).map Prod.fst).Nodup := keys.symm ▸ distinct
  rw [fields?_canonical distinct' fun e member => keys ▸ List.mem_map_of_mem member]
  refine congrArg some (List.ext_getElem (by simp [length]) fun n inNames inValues => ?_)
  rw [List.length_map] at inNames inValues
  have member : (names[n], values[n]) ∈ names.zip values := by
    have inside : n < (names.zip values).length := by
      rw [List.length_zip]
      omega
    exact List.mem_iff_getElem.mpr ⟨n, inside, List.getElem_zip⟩
  rw [List.getElem_map, List.getElem_map, (find?_eq_some_iff distinct').mpr member, Option.map_some]

/-! ## Lists of records -/

theorem list?_canonical {α : Type} {item : Value → Option α} {toValue : α → Value} {back : α → α}
    (read : ∀ a, item (toValue a).canonical = some (back a)) (items : List α) :
    Value.list? item (Value.array (items.map toValue)).canonical = some (items.map back) := by
  rw [Value.canonical, Value.canonicalItems_eq_map, Value.list?]
  induction items with
  | nil => rfl
  | cons a rest ih =>
    rw [List.map_cons, List.map_cons, List.mapM_cons, read, ih]
    rfl

theorem isPlain_records {α : Type} {toValue : α → Value} (tables : ∀ a, isTable (toValue a) = true)
    (items : List α) : isPlain (.array (items.map toValue)) = items.isEmpty := by
  cases items <;> simp [isPlain, tables]

/-- Values that no document tells apart. -/
structure Alike (v w : Value) : Prop where
  plain : isPlain v = isPlain w
  canonical : v.canonical = w.canonical

theorem alike_records {α : Type} {toValue : α → Value} {back : α → α}
    (tables : ∀ a, isTable (toValue a) = true)
    (same : ∀ a, (toValue (back a)).canonical = (toValue a).canonical) (items : List α) :
    Alike (.array ((items.map back).map toValue)) (.array (items.map toValue)) where
  plain := by rw [isPlain_records tables, isPlain_records tables, List.isEmpty_map]
  canonical := by
    simp only [Value.canonical, Value.canonicalItems_eq_map, List.map_map]
    exact congrArg Value.array (List.map_congr_left fun a _ => same a)

theorem canonical_congr {t t' : Table} (h : List.Forall₂ (fun e e' => e.1 = e'.1 ∧ Alike e.2 e'.2) t t') :
    t.canonical = t'.canonical := by
  have parts : Value.plainEntries t = Value.plainEntries t' ∧ Value.otherEntries t = Value.otherEntries t' := by
    induction h with
    | nil => exact ⟨rfl, rfl⟩
    | cons first _ ih =>
      obtain ⟨key, plain, canonical⟩ := first
      simp only [Value.plainEntries, Value.otherEntries, key, plain, canonical, ih, and_self]
  rw [Table.canonical, parts.1, parts.2, Table.canonical]

/-! ## One text for both forms -/

theorem Leaf.isPlain {v : Value} (h : Leaf v) : isPlain v = true := by
  cases h <;> rfl

theorem Leaf.canonical {v : Value} (h : Leaf v) : Leaf v.canonical := by
  cases h with
  | string text => exact .string text
  | integer low high => exact .integer low high
  | float x => exact .float x.canonical
  | boolean b => exact .boolean b
  | nothing => exact .nothing

theorem Leaf.renderInline_canonical {v : Value} (h : Leaf v) :
    renderInline v.canonical = renderInline v := by
  cases h with
  | float x => exact x.toDocument_canonical
  | _ => rfl

theorem subsections_eq_flatMap (path : List String) (entries : Table) :
    subsections path entries = entries.flatMap fun e => sections (path ++ [e.1]) e.2 := by
  induction entries with
  | nil => rfl
  | cons e rest ih => rw [subsections, ih, List.flatMap_cons]

theorem elements_eq_flatMap (path : List String) (tables : List Table) :
    elements path (tables.map .table) = tables.flatMap fun t =>
      (("[[" ++ renderPath path ++ "]]") :: plainLines t) :: subsections path t := by
  induction tables with
  | nil => rfl
  | cons t rest ih => rw [List.map_cons, elements, ih, List.flatMap_cons]

theorem all_isTable (tables : List Table) : (tables.map Value.table).all isTable = true := by
  simp [isTable]

theorem isPlain_tables {tables : List Table} (nonempty : tables ≠ []) :
    isPlain (.array (tables.map .table)) = false := by
  obtain ⟨t, rest, rfl⟩ := List.exists_cons_of_ne_nil nonempty
  have all := all_isTable (t :: rest)
  rw [List.map_cons] at all ⊢
  rw [isPlain, all]
  rfl

theorem sections_tables (path : List String) {tables : List Table} (nonempty : tables ≠ []) :
    sections path (.array (tables.map .table)) = elements path (tables.map .table) := by
  obtain ⟨t, rest, rfl⟩ := List.exists_cons_of_ne_nil nonempty
  have all := all_isTable (t :: rest)
  rw [List.map_cons] at all ⊢
  rw [sections, if_pos all]

theorem canonical_tables (tables : List Table) :
    (Value.array (tables.map .table)).canonical = .array ((tables.map Table.canonical).map .table) := by
  rw [Value.canonical, Value.canonicalItems_eq_map, List.map_map, List.map_map]
  rfl

theorem sections_leaf {v : Value} (h : Leaf v) (path : List String) : sections path v = [] := by
  cases h <;> rfl

theorem Writable.leaf_of_isPlain {depth : Nat} {v : Value} (h : Writable depth v)
    (plain : isPlain v = true) : Leaf v := by
  cases h with
  | leaf leaf => exact leaf
  | table => cases plain
  | tables nonempty =>
    rw [isPlain_tables nonempty] at plain
    cases plain

/-- The parts of a text that a value makes, each the same for its canonical form. -/
structure SameText (v : Value) : Prop where
  plain : isPlain v.canonical = isPlain v
  inline : isPlain v = true → renderInline v.canonical = renderInline v
  below : ∀ path, sections path v.canonical = sections path v
  none : isPlain v = true → ∀ path, sections path v = []

theorem plainLines_canonical {t : Table} (same : ∀ e ∈ t, SameText e.2) :
    plainLines t.canonical = plainLines t := by
  have kept : (Value.plainEntries t).filter (isPlain ·.2) = Value.plainEntries t := by
    rw [List.filter_eq_self, Value.plainEntries_eq_map]
    intro _ member
    obtain ⟨e, inside, rfl⟩ := List.mem_map.mp member
    obtain ⟨here, plain⟩ := List.mem_filter.mp inside
    exact (same e here).plain.trans plain
  have dropped : (Value.otherEntries t).filter (isPlain ·.2) = [] := by
    rw [List.filter_eq_nil_iff, Value.otherEntries_eq_map]
    intro _ member
    obtain ⟨e, inside, rfl⟩ := List.mem_map.mp member
    obtain ⟨here, other⟩ := List.mem_filter.mp inside
    simpa [(same e here).plain] using other
  rw [plainLines, Table.canonical, List.filter_append, kept, dropped, List.append_nil,
    Value.plainEntries_eq_map, List.map_map]
  refine List.map_congr_left fun e inside => ?_
  obtain ⟨here, plain⟩ := List.mem_filter.mp inside
  exact congrArg (renderKey e.1 ++ " = " ++ ·) ((same e here).inline plain)

theorem subsections_plainEntries {t : Table} (same : ∀ e ∈ t, SameText e.2) (path : List String) :
    subsections path (Value.plainEntries t) = [] := by
  rw [subsections_eq_flatMap, List.flatMap_eq_nil_iff, Value.plainEntries_eq_map]
  intro _ member
  obtain ⟨e, inside, rfl⟩ := List.mem_map.mp member
  obtain ⟨here, plain⟩ := List.mem_filter.mp inside
  exact ((same e here).below _).trans ((same e here).none plain _)

theorem subsections_otherEntries {t : Table} (same : ∀ e ∈ t, SameText e.2) (path : List String) :
    subsections path (Value.otherEntries t) = subsections path t := by
  induction t with
  | nil => rfl
  | cons e rest ih =>
    have here := same e List.mem_cons_self
    have later := ih fun e member => same e (List.mem_cons_of_mem _ member)
    rw [Value.otherEntries]
    split
    · rename_i plain
      rw [later, subsections, here.none plain, List.nil_append]
    · rw [subsections, subsections, later, here.below]

theorem subsections_canonical {t : Table} (same : ∀ e ∈ t, SameText e.2) (path : List String) :
    subsections path t.canonical = subsections path t := by
  have append := subsections_eq_flatMap path t.canonical
  rw [Table.canonical, List.flatMap_append, ← subsections_eq_flatMap, ← subsections_eq_flatMap,
    subsections_plainEntries same, subsections_otherEntries same, List.nil_append] at append
  exact append

theorem Writable.sameText {depth : Nat} {v : Value} (h : Writable depth v) : SameText v := by
  induction h with
  | leaf leaf =>
    exact ⟨leaf.canonical.isPlain.trans leaf.isPlain.symm, fun _ => leaf.renderInline_canonical,
      fun path => (sections_leaf leaf.canonical path).trans (sections_leaf leaf path).symm,
      fun _ => sections_leaf leaf⟩
  | @table _ entries keys values ih =>
    refine ⟨rfl, (nomatch ·), fun path => ?_, (nomatch ·)⟩
    change sections path (.table (Table.canonical entries)) = _
    rw [sections, sections, plainLines_canonical ih, subsections_canonical ih]
  | @tables _ tables nonempty keys values ih =>
    have plain := isPlain_tables nonempty
    have mapped : tables.map Table.canonical ≠ [] := by simpa using nonempty
    refine ⟨?_, fun inline => ?_, fun path => ?_, fun inline => ?_⟩
    · rw [canonical_tables, isPlain_tables mapped, plain]
    · rw [plain] at inline
      cases inline
    · rw [canonical_tables, sections_tables path mapped, sections_tables path nonempty,
        elements_eq_flatMap, elements_eq_flatMap, List.flatMap_map]
      refine List.flatMap_congr fun t member => ?_
      rw [plainLines_canonical (ih t member), subsections_canonical (ih t member)]
    · rw [plain] at inline
      cases inline

/-- A document and what it gives back have one text. -/
theorem render_canonical {t : Table} (h : IsDocument t) : render t.canonical = render t := by
  have same (e : String × Value) (member : e ∈ t) := (h.values e member).sameText
  rw [render, render, plainLines_canonical same, subsections_canonical same]

end Toml

end LockServo

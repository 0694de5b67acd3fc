import LockServo.Document.Load
import LockServo.Proofs.Toml.Lines

/-!
# Documents read back

The statements of a section change the tree only below the table that holds it. So what a value's
sections do is an update of the entries around it, and the updates of a document's parts compose to its
canonical form.
-/

namespace LockServo.Toml

/-! ## Entries under construction -/

namespace Entries

abbrev Update := Entries → Option Entries

variable {es sub : Entries} {key : String}

theorem find?_put (es : Entries) (key : String) (node : Node) : (put es key node).find? key = some node := by
  induction es with
  | nil => simp [put, find?]
  | cons e es ih =>
    rw [put]
    split
    · simp [find?]
    · rename_i other
      simpa [find?, other] using ih

theorem put_put (es : Entries) (key : String) (a b : Node) : put (put es key a) key b = put es key b := by
  induction es with
  | nil => simp [put]
  | cons e es ih =>
    rw [put]
    split
    · rename_i same
      simp [put, same]
    · rename_i other
      simp [put, other, ih]

def Fresh (es : Entries) (key : String) : Prop := ∀ e ∈ es, e.1 ≠ key

theorem find?_of_fresh (fresh : Fresh es key) : es.find? key = none := by
  rw [find?, Option.map_eq_none_iff, List.find?_eq_none]
  intro e member
  simpa using fresh e member

theorem put_of_fresh (fresh : Fresh es key) (node : Node) : put es key node = es ++ [(key, node)] := by
  induction es with
  | nil => rfl
  | cons e es ih =>
    have here := fresh e List.mem_cons_self
    rw [put, if_neg here, ih fun e member => fresh e (List.mem_cons_of_mem _ member), List.cons_append]

theorem find?_last (fresh : Fresh es key) (node : Node) : find? (es ++ [(key, node)]) key = some node := by
  rw [← put_of_fresh fresh, find?_put]

theorem put_last (fresh : Fresh es key) (a b : Node) :
    put (es ++ [(key, a)]) key b = es ++ [(key, b)] := by
  rw [← put_of_fresh fresh, put_put, put_of_fresh fresh]

theorem assign_of_fresh (fresh : Fresh es key) (v : Value) :
    assign [key] v es = some (es ++ [(key, .leaf v)]) := by
  simp only [assign, find?_of_fresh fresh, put_of_fresh fresh]

/-! ## Updates below a path -/

theorem within_append (f : Update) (p q : List String) (es : Entries) :
    within f (p ++ q) es = within (within f q) p es := by
  induction p generalizing es with
  | nil => rfl
  | cons key p ih => simp only [List.cons_append, within, ih]

def Update.andThen (f g : Update) : Update := fun es => (f es).bind g

theorem Update.andThen_assoc (f g h : Update) : (f.andThen g).andThen h = f.andThen (g.andThen h) := by
  funext es
  exact Option.bind_assoc (f es) g h

theorem within_andThen (f g : Update) (p : List String) (es : Entries) :
    within (f.andThen g) p es = (within f p es).bind (within g p) := by
  induction p generalizing es with
  | nil => rfl
  | cons key p ih =>
    rw [within.eq_def, within.eq_def f]
    simp only [ih]
    cases es.find? key with
    | none => cases within f p [] <;> simp [within, find?_put, put_put]
    | some node =>
      cases node with
      | leaf v => rfl
      | table origin sub => cases inner : within f p sub <;> simp [inner, within, find?_put, put_put]
      | tables done last => cases inner : within f p last <;> simp [inner, within, find?_put, put_put]

/-! ## Updates of the last entry -/

inductive Opened : (Entries → Node) → Prop
  | table (origin : Origin) : Opened (.table origin)
  | tables (done : List Entries) : Opened (.tables done)

theorem within_last {node : Entries → Node} (opened : Opened node) (fresh : Fresh es key) (f : Update) :
    within f [key] (es ++ [(key, node sub)]) = (f sub).map fun sub => es ++ [(key, node sub)] := by
  have here := find?_last fresh (node sub)
  cases opened with
  | table origin => simp only [within, here, put_last fresh]
  | tables done => simp only [within, here, put_last fresh]

theorem within_fresh (fresh : Fresh es key) (f : Update) :
    within f [key] es = (f []).map fun sub => es ++ [(key, .table .implied sub)] := by
  simp only [within, find?_of_fresh fresh, put_of_fresh fresh]

theorem openTable_fresh (fresh : Fresh es key) : openTable key es = some (es ++ [(key, .table .header [])]) := by
  simp only [openTable, find?_of_fresh fresh, put_of_fresh fresh]

theorem openElement_fresh (fresh : Fresh es key) : openElement key es = some (es ++ [(key, .tables [] [])]) := by
  simp only [openElement, find?_of_fresh fresh, put_of_fresh fresh]

theorem openElement_last (fresh : Fresh es key) (done : List Entries) (last : Entries) :
    openElement key (es ++ [(key, .tables done last)]) = some (es ++ [(key, .tables (done ++ [last]) [])]) := by
  simp only [openElement, find?_last fresh, put_last fresh]

def assigns (key : String) (pairs : Table) : Update := fun es =>
  pairs.foldlM (fun es e => within (assign [e.1] e.2) [key] es) es

def leaves (pairs : Table) : Entries := pairs.map fun e => (e.1, .leaf e.2)

theorem fresh_append {a b : Entries} (left : Fresh a key) (right : Fresh b key) : Fresh (a ++ b) key := by
  intro e member
  rcases List.mem_append.mp member with here | there
  · exact left e here
  · exact right e there

/-- An entry with a key of its own leaves the keys behind it new. -/
theorem fresh_later {e : String × Value} {pairs : Table} (distinct : e.1 ∉ pairs.map Prod.fst)
    (new : ∀ d ∈ e :: pairs, Fresh es d.1) (node : Node) :
    ∀ d ∈ pairs, Fresh (es ++ [(e.1, node)]) d.1 := by
  intro d member
  refine fresh_append (new d (List.mem_cons_of_mem _ member)) fun n single same => ?_
  obtain rfl := List.mem_singleton.mp single
  exact distinct (List.mem_map.mpr ⟨d, member, same.symm⟩)

theorem assigns_last {node : Entries → Node} (opened : Opened node) (fresh : Fresh es key) {pairs : Table}
    (distinct : (pairs.map Prod.fst).Nodup) (new : ∀ e ∈ pairs, Fresh sub e.1) :
    assigns key pairs (es ++ [(key, node sub)]) = some (es ++ [(key, node (sub ++ leaves pairs))]) := by
  induction pairs generalizing sub with
  | nil => simp [assigns, leaves]
  | cons e pairs ih =>
    rw [List.map_cons, List.nodup_cons] at distinct
    have here := assign_of_fresh (new e List.mem_cons_self) e.2
    rw [assigns, List.foldlM_cons, within_last opened fresh, here]
    refine (ih distinct.2 (fresh_later distinct.1 new _)).trans ?_
    simp [leaves]

/-- An update that puts nodes with new keys behind the entries. -/
def Adds (nodes : Entries) (f : Update) : Prop :=
  ∀ es, (∀ n ∈ nodes, Fresh es n.1) → f es = some (es ++ nodes)

theorem Adds.andThen {a b : Entries} {f g : Update} (first : Adds a f) (second : Adds b g)
    (apart : ∀ n ∈ b, Fresh a n.1) : Adds (a ++ b) (f.andThen g) := by
  intro es fresh
  rw [Update.andThen, first es fun n member => fresh n (List.mem_append_left b member), Option.bind_some,
    second, List.append_assoc]
  intro n member
  exact fresh_append (fresh n (List.mem_append_right a member)) (apart n member)

end Entries

/-! ## Sections that make an update -/

open Entries

/-- Statements that make an update of the table at a path. -/
def Runs (path : List String) (f : Update) (statements : List Statement) : Prop :=
  ∀ es current es', within f path es = some es' →
    ∃ current', statements.foldlM Statement.extend (es, current) = some (es', current')

def Makes (path : List String) (f : Update) (written : List (List String)) : Prop :=
  ∃ parts : List (List Statement), List.Forall₂ (List.Forall₂ Line) written parts ∧ Runs path f parts.flatten

theorem Makes.andThen {path : List String} {f g : Update} {a b : List (List String)} (first : Makes path f a)
    (second : Makes path g b) : Makes path (f.andThen g) (a ++ b) := by
  obtain ⟨p, lines, run⟩ := first
  obtain ⟨q, lines', run'⟩ := second
  refine ⟨p ++ q, List.rel_append lines lines', fun es current es' done => ?_⟩
  rw [within_andThen] at done
  obtain ⟨mid, before, after⟩ := Option.bind_eq_some_iff.mp done
  obtain ⟨current', reached⟩ := run es current mid before
  obtain ⟨current'', reached'⟩ := run' mid current' es' after
  refine ⟨current'', ?_⟩
  rw [List.flatten_append, List.foldlM_append, reached]
  exact reached'

theorem Makes.descend {path : List String} {key : String} {f : Update} {written : List (List String)}
    (h : Makes (path ++ [key]) f written) : Makes path (within f [key]) written := by
  obtain ⟨parts, lines, run⟩ := h
  refine ⟨parts, lines, fun es current es' done => run es current es' ?_⟩
  rwa [within_append]

/-! ## One section -/

def pairsOf (t : Table) : List Statement := t.map fun e => .pair [e.1] e.2

section

variable {path : List String} {key : String}

/-- Pairs go into the table that the statements before them opened. -/
theorem run_pairs {f : Update} {statements : List Statement} (pairs : Table)
    (run : ∀ es current es', within f path es = some es' →
      statements.foldlM Statement.extend (es, current) = some (es', path ++ [key]))
    (es : Entries) (current : List String) (es' : Entries)
    (done : within (f.andThen (assigns key pairs)) path es = some es') :
    (statements ++ pairsOf pairs).foldlM Statement.extend (es, current) = some (es', path ++ [key]) := by
  induction pairs generalizing f statements with
  | nil =>
    have same : f.andThen (assigns key []) = f := by
      funext es
      exact Option.bind_fun_some (f es)
    rw [same] at done
    simpa [pairsOf] using run es current es' done
  | cons e pairs ih =>
    have regroup : f.andThen (assigns key (e :: pairs)) =
        (f.andThen (within (assign [e.1] e.2) [key])).andThen (assigns key pairs) := by
      funext es
      simp only [Update.andThen, assigns, List.foldlM_cons, Option.bind_assoc]
      rfl
    have further : ∀ es current es', within (f.andThen (within (assign [e.1] e.2) [key])) path es = some es' →
        (statements ++ [Statement.pair [e.1] e.2]).foldlM Statement.extend (es, current) = some (es', path ++ [key]) := by
      intro es current es' both
      rw [within_andThen] at both
      obtain ⟨mid, before, after⟩ := Option.bind_eq_some_iff.mp both
      rw [← within_append] at after
      rw [List.foldlM_append, run es current mid before]
      simp [Statement.extend, after]
    rw [regroup] at done
    have step := ih further done
    rwa [List.append_assoc, List.singleton_append] at step

theorem extend_header (es : Entries) (current : List String) :
    Statement.extend (es, current) (.header (path ++ [key])) =
      (within (openTable key) path es).map (·, path ++ [key]) := by
  simp only [Statement.extend, splitLast, List.getLast?_concat, List.dropLast_concat, Option.map_some]
  exact Option.map_eq_bind.symm

theorem extend_element (es : Entries) (current : List String) :
    Statement.extend (es, current) (.element (path ++ [key])) =
      (within (openElement key) path es).map (·, path ++ [key]) := by
  simp only [Statement.extend, splitLast, List.getLast?_concat, List.dropLast_concat, Option.map_some]
  exact Option.map_eq_bind.symm

theorem lines_pairs {entries : Table} (keys : HasKeys entries)
    (leaf : ∀ e ∈ entries, isPlain e.2 = true → Leaf e.2) :
    List.Forall₂ Line (plainLines entries) (pairsOf (Value.plainEntries entries)) := by
  rw [plainLines, pairsOf, Value.plainEntries_eq_map, List.map_map, List.forall₂_map_left_iff,
    List.forall₂_map_right_iff, List.forall₂_same]
  intro e member
  obtain ⟨here, plain⟩ := List.mem_filter.mp member
  exact line_pair (keys.bare e here) (leaf e here plain).readsAs

theorem makes_section {head : String} {opening : Statement} {f : Update} (line : Line head opening)
    (extend : ∀ es current, Statement.extend (es, current) opening =
      (within f path es).map (·, path ++ [key])) {entries : Table} (keys : HasKeys entries)
    (leaf : ∀ e ∈ entries, isPlain e.2 = true → Leaf e.2) :
    Makes path (f.andThen (assigns key (Value.plainEntries entries))) [head :: plainLines entries] := by
  refine ⟨[opening :: pairsOf (Value.plainEntries entries)],
    .cons (.cons line (lines_pairs keys leaf)) .nil, fun es current es' done => ⟨path ++ [key], ?_⟩⟩
  have opened : ∀ es current es', within f path es = some es' →
      [opening].foldlM Statement.extend (es, current) = some (es', path ++ [key]) := by
    intro es current es' h
    simp [extend, h]
  rw [List.flatten_singleton]
  exact run_pairs _ opened es current es' done

end

/-! ## The nodes of a value -/

theorem entriesToTable_append (a b : Entries) :
    entriesToTable (a ++ b) = entriesToTable a ++ entriesToTable b := by
  induction a with
  | nil => rfl
  | cons e a ih => rw [List.cons_append, entriesToTable, entriesToTable, ih, List.cons_append]

theorem entriesToTable_leaves (t : Table) : entriesToTable (leaves t) = t := by
  induction t with
  | nil => rfl
  | cons e t ih =>
    rw [leaves, List.map_cons, entriesToTable, Node.toValue]
    exact congrArg _ ih

theorem keys_entriesToTable (nodes : Entries) : (entriesToTable nodes).map Prod.fst = nodes.map Prod.fst := by
  induction nodes with
  | nil => rfl
  | cons e nodes ih => rw [entriesToTable, List.map_cons, List.map_cons, ih]

theorem exists_entry_of_mem {nodes : Entries} {n : String × Node} (member : n ∈ nodes) :
    ∃ e ∈ entriesToTable nodes, e.1 = n.1 := by
  have inside : n.1 ∈ (entriesToTable nodes).map Prod.fst := by
    rw [keys_entriesToTable]
    exact List.mem_map_of_mem member
  exact List.mem_map.mp inside

theorem plainEntries_distinct {entries : Table} (distinct : (entries.map Prod.fst).Nodup) :
    ((Value.plainEntries entries).map Prod.fst).Nodup := by
  rw [Value.plainEntries_eq_map, List.map_map]
  exact distinct.sublist (List.filter_sublist.map Prod.fst)

/-- No key stands both on a line and over a table. -/
theorem plainEntries_apart {entries : Table} (distinct : (entries.map Prod.fst).Nodup) :
    ∀ e ∈ Value.otherEntries entries, ∀ d ∈ Value.plainEntries entries, d.1 ≠ e.1 := by
  rw [Value.plainEntries_eq_map, Value.otherEntries_eq_map]
  intro _ other _ plain same
  obtain ⟨e, there, rfl⟩ := List.mem_map.mp other
  obtain ⟨d, here, rfl⟩ := List.mem_map.mp plain
  obtain ⟨thereIn, otherKind⟩ := List.mem_filter.mp there
  obtain ⟨hereIn, plainKind⟩ := List.mem_filter.mp here
  obtain rfl := List.inj_on_of_nodup_map distinct hereIn thereIn same
  rw [plainKind] at otherKind
  cases otherKind

/-- Lines leave the keys of the tables behind them new. -/
theorem fresh_leaves {entries : Table} {nodes : Entries} (distinct : (entries.map Prod.fst).Nodup)
    (value : entriesToTable nodes = Value.otherEntries entries) :
    ∀ n ∈ nodes, Fresh (leaves (Value.plainEntries entries)) n.1 := by
  intro n member m inside same
  obtain ⟨e, there, other⟩ := exists_entry_of_mem member
  obtain ⟨d, here, rfl⟩ := List.mem_map.mp inside
  exact plainEntries_apart distinct e (value ▸ there) d here (same.trans other.symm)

def MakesEntries (path : List String) (entries : Table) (written : List (List String)) : Prop :=
  ∃ f nodes, entriesToTable nodes = entries ∧ Makes path f written ∧ Adds nodes f

theorem MakesEntries.append {path : List String} {a b : Table} {written written' : List (List String)}
    (first : MakesEntries path a written) (second : MakesEntries path b written')
    (apart : ∀ e ∈ b, ∀ d ∈ a, d.1 ≠ e.1) : MakesEntries path (a ++ b) (written ++ written') := by
  obtain ⟨f, nodes, rfl, makes, adds⟩ := first
  obtain ⟨g, nodes', rfl, makes', adds'⟩ := second
  refine ⟨f.andThen g, nodes ++ nodes', entriesToTable_append _ _, makes.andThen makes', adds.andThen adds' ?_⟩
  intro n member m inside same
  obtain ⟨e, there, key⟩ := exists_entry_of_mem member
  obtain ⟨d, here, key'⟩ := exists_entry_of_mem inside
  exact apart e there d here (key'.trans (same.trans key.symm))

def MakesBelow (path : List String) (entries : Table) : Prop :=
  (Value.otherEntries entries = [] ∧ subsections path entries = []) ∨
    MakesEntries path (Value.otherEntries entries) (subsections path entries)

theorem subsections_make {path : List String} {entries : Table} (distinct : (entries.map Prod.fst).Nodup)
    (same : ∀ e ∈ entries, SameText e.2)
    (each : ∀ e ∈ entries, isPlain e.2 = false →
      MakesEntries path [(e.1, e.2.canonical)] (sections (path ++ [e.1]) e.2)) :
    MakesBelow path entries := by
  induction entries with
  | nil => exact Or.inl ⟨rfl, rfl⟩
  | cons e rest ih =>
    rw [List.map_cons, List.nodup_cons] at distinct
    have later := ih distinct.2 (fun d member => same d (List.mem_cons_of_mem _ member))
      fun d member => each d (List.mem_cons_of_mem _ member)
    rw [MakesBelow, Value.otherEntries, subsections]
    split
    · rename_i plain
      rw [(same e List.mem_cons_self).none plain, List.nil_append]
      exact later
    · rename_i other
      have here := each e List.mem_cons_self (Bool.not_eq_true _ ▸ other)
      right
      rcases later with ⟨noEntries, noSections⟩ | more
      · rw [noEntries, noSections, List.append_nil]
        exact here
      · refine here.append more ?_
        rw [Value.otherEntries_eq_map]
        intro _ member d single
        obtain ⟨n, inside, rfl⟩ := List.mem_map.mp member
        obtain rfl := List.mem_singleton.mp single
        intro sameKey
        exact distinct.1 (List.mem_map.mpr ⟨n, List.mem_of_mem_filter inside, sameKey.symm⟩)

section

variable {path : List String} {key : String} {entries : Table} (keys : HasKeys entries)
  (leaf : ∀ e ∈ entries, isPlain e.2 = true → Leaf e.2)
  (below : MakesBelow (path ++ [key]) entries)

include keys leaf below

/-- A table under an opening line fills the node that the line opened. -/
theorem exists_content {head : String} {opening : Statement} {f : Update} (line : Line head opening)
    (extend : ∀ es current, Statement.extend (es, current) opening =
      (within f path es).map (·, path ++ [key])) :
    ∃ g content, entriesToTable content = Table.canonical entries ∧
      Makes path (f.andThen g) ((head :: plainLines entries) :: subsections (path ++ [key]) entries) ∧
      ∀ {node : Entries → Node}, Opened node → ∀ es, Fresh es key →
        g (es ++ [(key, node [])]) = some (es ++ [(key, node content)]) := by
  have lines := makes_section line extend keys leaf
  have written {node : Entries → Node} (opened : Opened node) (es : Entries) (fresh : Fresh es key) :
      assigns key (Value.plainEntries entries) (es ++ [(key, node [])]) =
        some (es ++ [(key, node (leaves (Value.plainEntries entries)))]) :=
    assigns_last opened fresh (plainEntries_distinct keys.distinct) fun _ _ _ inside => nomatch inside
  rcases below with ⟨noEntries, noSections⟩ | ⟨g, nodes, value, makes, adds⟩
  · refine ⟨_, leaves (Value.plainEntries entries), ?_, by rwa [noSections], written⟩
    rw [entriesToTable_leaves, Table.canonical, noEntries, List.append_nil]
  · refine ⟨(assigns key (Value.plainEntries entries)).andThen (within g [key]),
      leaves (Value.plainEntries entries) ++ nodes, ?_, ?_, fun opened es fresh => ?_⟩
    · rw [entriesToTable_append, entriesToTable_leaves, value, Table.canonical]
    · rw [← Update.andThen_assoc]
      exact lines.andThen makes.descend
    · rw [Update.andThen, written opened es fresh, Option.bind_some, within_last opened fresh,
        adds _ (fresh_leaves keys.distinct value)]
      rfl

theorem makes_table (bare : ∀ k ∈ path ++ [key], IsBareKey k) (short : (path ++ [key]).length ≤ depthLimit) :
    MakesEntries path [(key, (Value.table entries).canonical)] (sections (path ++ [key]) (.table entries)) := by
  rw [sections]
  split
  · rename_i bodiless
    simp only [Bool.and_eq_true, List.isEmpty_iff, Bool.not_eq_true', List.isEmpty_eq_false_iff] at bodiless
    obtain ⟨noLines, some⟩ := bodiless
    have noPlain : Value.plainEntries entries = [] := by
      rw [plainLines, List.map_eq_nil_iff] at noLines
      rw [Value.plainEntries_eq_map, noLines, List.map_nil]
    rcases below with ⟨-, none⟩ | ⟨g, nodes, value, makes, adds⟩
    · exact absurd none some
    · refine ⟨within g [key], [(key, .table .implied nodes)], ?_, makes.descend, fun es fresh => ?_⟩
      · rw [entriesToTable, Node.toValue, value, Value.canonical, noPlain, List.nil_append]
        rfl
      · rw [within_fresh (fresh _ List.mem_cons_self), adds [] fun _ _ => List.forall_mem_nil _]
        rfl
  · have line := line_header (List.append_ne_nil_of_right_ne_nil path (List.cons_ne_nil key [])) bare short
    obtain ⟨g, content, value, makes, fills⟩ := exists_content keys leaf below line extend_header
    refine ⟨_, [(key, .table .header content)], ?_, makes, fun es fresh => ?_⟩
    · rw [entriesToTable, Node.toValue, value]
      rfl
    · have new := fresh _ List.mem_cons_self
      rw [Update.andThen, openTable_fresh new, Option.bind_some]
      exact fills (.table .header) es new

end

/-- An update that puts tables behind those of the list at a key, or makes the list. -/
structure Lists (key : String) (init : List Entries) (last : Entries) (f : Update) : Prop where
  first : ∀ es, Fresh es key → f es = some (es ++ [(key, .tables init last)])
  more : ∀ es done before, Fresh es key →
    f (es ++ [(key, .tables done before)]) = some (es ++ [(key, .tables (done ++ before :: init) last)])

theorem Lists.andThen {key : String} {init init' : List Entries} {last last' : Entries} {f g : Update}
    (h : Lists key init last f) (h' : Lists key init' last' g) :
    Lists key (init ++ last :: init') last' (f.andThen g) where
  first es fresh := by rw [Update.andThen, h.first es fresh, Option.bind_some, h'.more es init last fresh]
  more es done before fresh := by
    rw [Update.andThen, h.more es done before fresh, Option.bind_some, h'.more es _ last fresh,
      List.append_assoc, List.cons_append]

section

variable {path : List String} {key : String} (bare : ∀ k ∈ path ++ [key], IsBareKey k)
  (short : (path ++ [key]).length ≤ depthLimit)

include bare short

theorem elements_make {tables : List Table} (nonempty : tables ≠ []) (keys : ∀ t ∈ tables, HasKeys t)
    (leaf : ∀ t ∈ tables, ∀ e ∈ t, isPlain e.2 = true → Leaf e.2)
    (below : ∀ t ∈ tables, MakesBelow (path ++ [key]) t) :
    ∃ f init last, tablesToItems init ++ [.table (entriesToTable last)] =
        (tables.map Table.canonical).map .table ∧
      Makes path f (elements (path ++ [key]) (tables.map .table)) ∧ Lists key init last f := by
  have line := line_element (List.append_ne_nil_of_right_ne_nil path (List.cons_ne_nil key [])) bare short
  induction tables with
  | nil => exact absurd rfl nonempty
  | cons t rest ih =>
    obtain ⟨g, content, value, makes, fills⟩ := exists_content (keys t List.mem_cons_self)
      (leaf t List.mem_cons_self) (below t List.mem_cons_self) line extend_element
    have one : Lists key [] content (Update.andThen (openElement key) g) := by
      refine ⟨fun es fresh => ?_, fun es done before fresh => ?_⟩
      · rw [Update.andThen, openElement_fresh fresh, Option.bind_some]
        exact fills (.tables []) es fresh
      · rw [Update.andThen, openElement_last fresh, Option.bind_some]
        exact fills (.tables _) es fresh
    have split : elements (path ++ [key]) ((t :: rest).map .table) =
        (("[[" ++ renderPath (path ++ [key]) ++ "]]") :: plainLines t) :: subsections (path ++ [key]) t ++
          elements (path ++ [key]) (rest.map .table) := by
      rw [List.map_cons, elements]
    rw [split]
    cases rest with
    | nil =>
      refine ⟨_, [], content, ?_, ?_, one⟩
      · rw [value]
        rfl
      · rw [List.map_nil, elements, List.append_nil]
        exact makes
    | cons next rest =>
      obtain ⟨f, init, last, values, more, lists⟩ := ih (by simp)
        (fun t member => keys t (List.mem_cons_of_mem _ member))
        (fun t member => leaf t (List.mem_cons_of_mem _ member))
        fun t member => below t (List.mem_cons_of_mem _ member)
      refine ⟨_, content :: init, last, ?_, makes.andThen more, one.andThen lists⟩
      rw [tablesToItems, List.cons_append, values, value]
      rfl

end

/-- The tables of a table are made when each of its values makes its own. -/
theorem below_make {path : List String} {depth : Nat} {entries : Table} (keys : HasKeys entries)
    (bare : ∀ k ∈ path, IsBareKey k) (values : ∀ e ∈ entries, Writable depth e.2)
    (each : ∀ e ∈ entries, ∀ key, (∀ k ∈ path ++ [key], IsBareKey k) → isPlain e.2 = false →
      MakesEntries path [(key, e.2.canonical)] (sections (path ++ [key]) e.2)) :
    MakesBelow path entries := by
  refine subsections_make keys.distinct (fun e member => (values e member).sameText) fun e member other => ?_
  refine each e member e.1 (fun k inside => ?_) other
  rcases List.mem_append.mp inside with above | here
  · exact bare k above
  · rw [List.mem_singleton.mp here]
    exact keys.bare e member

/-- What a value's sections make of the entries around it. -/
theorem Writable.makes {depth : Nat} {v : Value} (h : Writable depth v) {path : List String}
    (short : path.length + depth ≤ depthLimit) (key : String) (bare : ∀ k ∈ path ++ [key], IsBareKey k)
    (other : isPlain v = false) :
    MakesEntries path [(key, v.canonical)] (sections (path ++ [key]) v) := by
  induction h generalizing path key with
  | leaf leaf =>
    rw [leaf.isPlain] at other
    cases other
  | @table depth entries keys values ih =>
    have length : (path ++ [key]).length = path.length + 1 := by simp
    refine makes_table keys (fun e member => (values e member).leaf_of_isPlain)
      (below_make keys bare values fun e member => ih e member ?_) bare ?_
    · omega
    · omega
  | @tables depth tables nonempty keys values ih =>
    have length : (path ++ [key]).length = path.length + 1 := by simp
    obtain ⟨f, init, last, items, makes, lists⟩ := elements_make bare (by omega) nonempty keys
      (fun t member e inside => (values t member e inside).leaf_of_isPlain) fun t member =>
        below_make (keys t member) bare (values t member) fun e inside => ih t member e inside (by omega)
    refine ⟨f, [(key, .tables init last)], ?_, ?_, fun es fresh => lists.first es (fresh _ List.mem_cons_self)⟩
    · rw [entriesToTable, Node.toValue, items, canonical_tables]
      rfl
    · rwa [sections_tables _ nonempty]

/-! ## Documents -/

theorem lines_section {lines : List String} {statements : List Statement} (h : List.Forall₂ Line lines statements) :
    Lines (String.join (lines.map (· ++ "\n"))).toList statements := by
  rw [String.toList_join]
  induction h with
  | nil => exact .nil
  | cons line _ ih =>
    rw [List.map_cons, List.flatMap_cons, String.toList_append, List.append_assoc]
    exact .line line ih

theorem lines_sections {written : List (List String)} {parts : List (List Statement)}
    (h : List.Forall₂ (List.Forall₂ Line) written parts) :
    Lines (String.intercalate "\n" (written.map fun lines => String.join (lines.map (· ++ "\n")))).toList
      parts.flatten := by
  induction h with
  | nil => exact .nil
  | @cons lines statements written parts here rest ih =>
    have first := lines_section here
    cases rest with
    | nil => simpa using first
    | cons =>
      rw [List.map_cons, List.map_cons, String.intercalate_cons_cons, String.toList_append,
        String.toList_append, List.append_assoc, List.flatten_cons]
      exact first.append (.blank ih)

theorem Lines.unmarked {s : List Char} {statements : List Statement} (h : Lines s statements) (rest : List Char) :
    s ≠ '\ufeff' :: rest := by
  rintro rfl
  generalize marked : '\ufeff' :: rest = text at h
  cases h with
  | nil => cases marked
  | blank => cases marked
  | line line _ =>
    obtain ⟨c, tail, starts, -, -, -, -, other⟩ := line.starts
    rw [starts] at marked
    exact other (List.cons.inj marked).1.symm

theorem parse?_lines {text : String} {statements : List Statement} (h : Lines text.toList statements) :
    parse? text = tableOf? statements := by
  have read := h.statements?
  have unmarked := h.unmarked
  unfold parse?
  dsimp only
  split
  · exact absurd ‹_› (unmarked _)
  · rw [read]
    rfl

theorem run_top {pairs : Table} (distinct : (pairs.map Prod.fst).Nodup) {es : Entries}
    (new : ∀ e ∈ pairs, Fresh es e.1) :
    (pairsOf pairs).foldlM Statement.extend (es, []) = some (es ++ leaves pairs, []) := by
  induction pairs generalizing es with
  | nil => simp [pairsOf, leaves]
  | cons e pairs ih =>
    rw [List.map_cons, List.nodup_cons] at distinct
    have here : Statement.extend (es, []) (.pair [e.1] e.2) = some (es ++ [(e.1, .leaf e.2)], []) := by
      simp only [Statement.extend, within, assign_of_fresh (new e List.mem_cons_self), Option.bind_eq_bind,
        Option.bind_some]
      rfl
    rw [pairsOf, List.map_cons, List.foldlM_cons, here]
    refine (ih distinct.2 (fresh_later distinct.1 new _)).trans ?_
    simp [leaves]

/-- The lines at the top of a document, which come before every header. -/
theorem lines_top {t : Table} (h : IsDocument t) : ∃ parts,
    List.Forall₂ (List.Forall₂ Line) (if (plainLines t).isEmpty then [] else [plainLines t]) parts ∧
      parts.flatten = pairsOf (Value.plainEntries t) := by
  have top := lines_pairs h.keys fun e member => (h.values e member).leaf_of_isPlain
  generalize pairsOf (Value.plainEntries t) = pairs at top
  generalize plainLines t = lines at top
  cases top with
  | nil => exact ⟨[], .nil, rfl⟩
  | cons line rest => exact ⟨[_], .cons (.cons line rest) .nil, List.flatten_singleton⟩

/-- Reading a document that was written gives its canonical form. -/
theorem parse?_render {t : Table} (h : IsDocument t) : parse? (render t) = some t.canonical := by
  have below : MakesBelow [] t :=
    below_make h.keys (fun _ inside => nomatch inside) h.values fun e member =>
      (h.values e member).makes (by simp)
  have plain : (pairsOf (Value.plainEntries t)).foldlM Statement.extend ([], []) =
      some (leaves (Value.plainEntries t), []) :=
    run_top (plainEntries_distinct h.keys.distinct) fun _ _ _ inside => nomatch inside
  obtain ⟨parts, lines, flat⟩ := lines_top h
  rcases below with ⟨noEntries, noSections⟩ | ⟨f, nodes, value, ⟨parts', lines', run⟩, adds⟩
  · have written : parse? (render t) = tableOf? parts.flatten := by
      apply parse?_lines
      rw [render, noSections, List.append_nil]
      exact lines_sections lines
    rw [written, flat, tableOf?, plain, Table.canonical, noEntries, List.append_nil]
    exact congrArg some (entriesToTable_leaves _)
  · have written : parse? (render t) = tableOf? (parts ++ parts').flatten :=
      parse?_lines (lines_sections (List.rel_append lines lines'))
    have added := adds _ (fresh_leaves h.keys.distinct value)
    obtain ⟨current, done⟩ := run _ [] _ added
    rw [written, List.flatten_append, flat, tableOf?, List.foldlM_append, plain]
    simp only [Option.bind_eq_bind, Option.bind_some, done]
    rw [Table.canonical, ← value]
    exact congrArg some ((entriesToTable_append _ _).trans (congrArg (· ++ _) (entriesToTable_leaves _)))

/-- What is decoded from the file of a document is decoded from its canonical form. -/
theorem decodeFile_render {α : Type} {decode : Table → Option α} {t : Table} {a : α} (h : IsDocument t)
    (read : decode t.canonical = some a) : decodeFile decode (.ok (render t).toUTF8) = .ok a := by
  rw [decodeFile_toUTF8, decodeText, parse?_render h, Option.bind_some, read]

end LockServo.Toml

import CommitGate.Proofs.Toml.Statement
import CommitGate.Toml.Document

/-!
# Blocks put a document together

While a block is carried out, its pairs go into one table of the document: the document itself, a
table that was opened last, or the last item of an array of tables. A slot is a document as a
function of that table. Whatever the slot, the pairs of a block end up in it in order when their
keys differ.

Results:

* `run_pairs`: the pairs of a block fill the slot.
* `run_tables`, `run_items`: blocks of tables add these tables, and blocks of items add an array of
  tables.
-/

namespace CommitGate.Toml

/-! ## Entries -/

namespace Entries

theorem lookup_eq_none {k : String} {es : Entries} (h : k ∉ es.map Prod.fst) :
    es.lookup k = none := by
  rw [List.lookup_eq_none_iff]
  intro e he
  have hne : k ≠ e.1 := fun heq => h (List.mem_map.2 ⟨e, he, heq.symm⟩)
  simpa using hne

theorem lookup_concat {k : String} {es : Entries} (h : es.lookup k = none) (v : Value) :
    (es ++ [(k, v)]).lookup k = some v := by
  rw [List.lookup_append, h]
  simp

theorem replace_concat {k : String} {es : Entries} (h : es.lookup k = none) (v v' : Value) :
    Entries.replace k v' (es ++ [(k, v)]) = es ++ [(k, v')] := by
  induction es with
  | nil => simp [replace]
  | cons e es ih =>
    rw [lookup_cons_eq] at h
    by_cases he : k = e.1
    · rw [if_pos he] at h
      cases h
    · rw [if_neg he] at h
      rw [List.cons_append, replace, if_neg (Ne.symm he), ih h, List.cons_append]

theorem assign_key {k : String} {es : Entries} (h : es.lookup k = none) (v : Value) :
    es.assign [k] v = some (es ++ [(k, v)]) := by
  unfold assign assignFrom
  rw [if_pos ⟨rfl, h⟩]
  rfl

end Entries

/-- The entries of pairs. -/
def pairEntries (ps : List Pair) : Entries :=
  ps.map fun p => (p.1, p.2.value)

namespace Document

/-! ## Slots -/

/-- A document as a function of the table that pairs go into. -/
def IsSlot (slot : Entries → Document) : Prop :=
  ∀ path v inner, (slot inner).carryOut (.pair path v) = (Entries.assign path v inner).map slot

theorem isSlot_root : IsSlot fun es => ⟨es, []⟩ := by
  intro path v inner
  simp only [carryOut, Entries.atHeader]
  cases Entries.assign path v inner <;> rfl

theorem isSlot_table {front : Entries} {name : String} (h : front.lookup name = none) :
    IsSlot fun inner => ⟨front ++ [(name, .table .header inner)], [name]⟩ := by
  intro path v inner
  simp only [carryOut, Entries.atHeader, Entries.lookup_concat h, Entries.replace_concat h]
  cases Entries.assign path v inner <;> rfl

theorem isSlot_item {front : Entries} {name : String} (h : front.lookup name = none)
    (items : List Value) :
    IsSlot fun inner =>
      ⟨front ++ [(name, .array (items ++ [.table .header inner]) true)], [name]⟩ := by
  intro path v inner
  simp only [carryOut, Entries.atHeader, Entries.lookup_concat h, Entries.replace_concat h,
    List.getLast?_concat, List.dropLast_concat]
  cases Entries.assign path v inner <;> rfl

theorem run_cons (d : Document) (st : Statement) (sts : List Statement) :
    d.run (st :: sts) = (d.carryOut st).bind fun d' => d'.run sts := rfl

/-- **The pairs of a block fill the slot in order.** -/
theorem run_pairs {slot : Entries → Document} (hslot : IsSlot slot) {inner : Entries}
    {ps : List Pair} (h : (inner.map Prod.fst ++ ps.map Prod.fst).Nodup) :
    (slot inner).run (ps.map Pair.statement) = some (slot (inner ++ pairEntries ps)) := by
  induction ps generalizing inner with
  | nil =>
    have hnil : inner ++ pairEntries [] = inner := List.append_nil inner
    rw [hnil]
    rfl
  | cons p ps ih =>
    have hkey : p.1 ∉ inner.map Prod.fst :=
      fun hmem => (List.nodup_append.1 h).2.2 p.1 hmem p.1 (by simp) rfl
    have hrest : ((inner ++ [(p.1, p.2.value)]).map Prod.fst ++ ps.map Prod.fst).Nodup := by
      simpa using h
    rw [List.map_cons, run_cons, Pair.statement, hslot,
      Entries.assign_key (Entries.lookup_eq_none hkey), Option.map_some, Option.bind_some, ih hrest]
    simp [pairEntries]

/-! ## Blocks -/

/-- The keys of pairs differ. -/
def Distinct (ps : List Pair) : Prop :=
  (ps.map Prod.fst).Nodup

theorem run_slot {slot : Entries → Document} (hslot : IsSlot slot) {ps : List Pair}
    (h : Distinct ps) :
    (slot []).run (ps.map Pair.statement) = some (slot (pairEntries ps)) := by
  have hnodup : (([] : Entries).map Prod.fst ++ ps.map Prod.fst).Nodup := h
  have hrun := run_pairs hslot hnodup
  rwa [List.nil_append] at hrun

theorem run_root {ps : List Pair} (h : Distinct ps) :
    empty.run (Block.pairs ps).statements = some ⟨pairEntries ps, []⟩ :=
  run_slot isSlot_root h

/-- A block of a table adds the table to the document. -/
theorem run_table {front : Entries} {name : String} (hname : front.lookup name = none)
    (current : List String) {ps : List Pair} (h : Distinct ps) :
    (⟨front, current⟩ : Document).run (Block.table name ps).statements =
      some ⟨front ++ [(name, .table .header (pairEntries ps))], [name]⟩ := by
  have hopen : (⟨front, current⟩ : Document).carryOut (.table [name]) =
      some ⟨front ++ [(name, .table .header [])], [name]⟩ := by
    simp [carryOut, Entries.atHeader, Entries.openTable, hname, Entries.add]
  rw [Block.statements, run_cons, hopen, Option.bind_some]
  exact run_slot (isSlot_table hname) h

/-- The tables of pairs with names. -/
def namedTables (ts : List (String × List Pair)) : Entries :=
  ts.map fun t => (t.1, .table .header (pairEntries t.2))

/-- Blocks of tables with different names add these tables to the document. -/
theorem run_tables {front : Entries} {ts : List (String × List Pair)}
    (hnames : (front.map Prod.fst ++ ts.map Prod.fst).Nodup) (h : ∀ t ∈ ts, Distinct t.2)
    (current : List String) :
    ∃ current', (⟨front, current⟩ : Document).run
      ((ts.map fun t => Block.table t.1 t.2).flatMap Block.statements) =
      some ⟨front ++ namedTables ts, current'⟩ := by
  induction ts generalizing front current with
  | nil =>
    have hnil : front ++ namedTables [] = front := List.append_nil front
    rw [hnil]
    exact ⟨current, rfl⟩
  | cons t ts ih =>
    have hname : t.1 ∉ front.map Prod.fst :=
      fun hmem => (List.nodup_append.1 hnames).2.2 t.1 hmem t.1 (by simp) rfl
    have hrest : ((front ++ [(t.1, Value.table .header (pairEntries t.2))]).map Prod.fst ++
        ts.map Prod.fst).Nodup := by
      simpa using hnames
    obtain ⟨current', hrun⟩ := ih hrest (fun u hu => h u (List.mem_cons_of_mem t hu)) [t.1]
    refine ⟨current', ?_⟩
    rw [List.map_cons, List.flatMap_cons, run_append,
      run_table (Entries.lookup_eq_none hname) current (h t List.mem_cons_self), Option.bind_some,
        hrun]
    simp [namedTables]

/-- The tables of items. -/
def itemTables (pss : List (List Pair)) : List Value :=
  pss.map fun ps => .table .header (pairEntries ps)

/-- Blocks of items add to the array that is there. -/
theorem run_moreItems {front : Entries} {name : String} (hname : front.lookup name = none)
    {pss : List (List Pair)}
    (h : ∀ ps ∈ pss, Distinct ps) (items : List Value) (current : List String) :
    ∃ current', (⟨front ++ [(name, .array items true)], current⟩ : Document).run
        ((pss.map (Block.item name)).flatMap Block.statements) =
      some ⟨front ++ [(name, .array (items ++ itemTables pss) true)], current'⟩ := by
  induction pss generalizing items current with
  | nil =>
    have hnil : items ++ itemTables [] = items := List.append_nil items
    rw [hnil]
    exact ⟨current, rfl⟩
  | cons ps pss ih =>
    have hopen : (⟨front ++ [(name, .array items true)], current⟩ : Document).carryOut
        (.item [name]) =
        some ⟨front ++ [(name, .array (items ++ [.table .header []]) true)], [name]⟩ := by
      simp [carryOut, Entries.atHeader, Entries.openItem, Entries.lookup_concat hname,
        Entries.replace_concat hname]
    have hslot := run_slot (isSlot_item hname items) (h ps List.mem_cons_self)
    obtain ⟨current', hrest⟩ := ih (fun qs hqs => h qs (List.mem_cons_of_mem ps hqs))
      (items ++ [.table .header (pairEntries ps)]) [name]
    refine ⟨current', ?_⟩
    rw [List.map_cons, List.flatMap_cons, run_append, Block.statements, run_cons, hopen,
      Option.bind_some, hslot, Option.bind_some, hrest]
    simp [itemTables]

/-- Blocks of items, at least one, add an array of their tables. -/
theorem run_items {front : Entries} {name : String} (hname : front.lookup name = none)
    {pss : List (List Pair)}
    (h : ∀ ps ∈ pss, Distinct ps) (hne : pss ≠ []) (current : List String) :
    ∃ current', (⟨front, current⟩ : Document).run
      ((pss.map (Block.item name)).flatMap Block.statements) =
      some ⟨front ++ [(name, .array (itemTables pss) true)], current'⟩ := by
  cases pss with
  | nil => exact absurd rfl hne
  | cons ps pss =>
    have hopen : (⟨front, current⟩ : Document).carryOut (.item [name]) =
        some ⟨front ++ [(name, .array [.table .header []] true)], [name]⟩ := by
      simp [carryOut, Entries.atHeader, Entries.openItem, hname, Entries.add]
    have hslot : (⟨front ++ [(name, .array [.table .header []] true)], [name]⟩ : Document).run
        (ps.map Pair.statement) =
          some ⟨front ++ [(name, .array [.table .header (pairEntries ps)] true)], [name]⟩ :=
      run_slot (isSlot_item hname []) (h ps List.mem_cons_self)
    obtain ⟨current', hrest⟩ := run_moreItems hname
      (fun qs hqs => h qs (List.mem_cons_of_mem ps hqs))
      [.table .header (pairEntries ps)] [name]
    refine ⟨current', ?_⟩
    rw [List.map_cons, List.flatMap_cons, run_append, Block.statements, run_cons, hopen,
      Option.bind_some, hslot, Option.bind_some, hrest]
    rfl

end Document

end CommitGate.Toml

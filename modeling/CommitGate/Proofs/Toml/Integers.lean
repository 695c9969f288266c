import CommitGate.Proofs.Toml.Reading

/-!
# Integers of documents fit 64 bits

An integer that is read fits 64 bits with a sign, and a document is put together from what was read.
So no document has an integer that could not be written again.

Results:

* `holds_fits`: every integer of a value that is read fits.
* `fit_carryOut`: carrying out a statement brings in no other integers.
* `fit_parse?`: every integer of a document fits.
-/

namespace CommitGate.Toml

/-- Every integer of the value stays below the bound. -/
inductive Value.Fits : Value → Prop where
  | text (s : String) : Fits (.text s)
  | integer {n : Int} (h : n < integerBound) : Fits (.integer n)
  | float (spelling : String) : Fits (.float spelling)
  | boolean (b : Bool) : Fits (.boolean b)
  | moment (spelling : String) : Fits (.moment spelling)
  | array {items : List Value} (extensible : Bool) (h : ∀ v ∈ items, Fits v) :
      Fits (.array items extensible)
  | table (origin : Origin) {es : Entries} (h : ∀ e ∈ es, Fits e.2) : Fits (.table origin es)

/-- A computation that may fail, up to its last step. -/
theorem exists_of_bind_eq_some {α β : Type} {x : Option α} {g : α → β} {b : β}
    (h : (do some (g (← x))) = some b) :
    ∃ a, x = some a ∧ g a = b := by
  simpa [Option.bind_eq_some_iff] using h

namespace Entries

/-- Every integer of the entries stays below the bound. -/
def Fit (es : Entries) : Prop :=
  ∀ e ∈ es, e.2.Fits

/-- A change of entries brings in no other integers. -/
def Preserves (f : Entries → Option Entries) : Prop :=
  ∀ es es', Fit es → f es = some es' → Fit es'

variable {es es' : Entries} {k : String} {v : Value}

theorem fit_nil : Fit [] := fun _ he => absurd he List.not_mem_nil

theorem Fit.lookup (h : Fit es) (hk : es.lookup k = some v) : v.Fits := by
  obtain ⟨l₁, l₂, rfl, -⟩ := List.lookup_eq_some_iff.1 hk
  exact h (k, v) (by simp)

theorem Fit.inner (h : Fit es) {origin : Origin} {inner : Entries}
    (hk : es.lookup k = some (.table origin inner)) :
    Fit inner := by
  cases h.lookup hk with
  | table _ h => exact h

theorem Fit.items (h : Fit es) {items : List Value} {extensible : Bool}
    (hk : es.lookup k = some (.array items extensible)) : ∀ v ∈ items, v.Fits := by
  cases h.lookup hk with
  | array _ h => exact h

theorem Fit.add (h : Fit es) (hv : v.Fits) : Fit (es.add k v) :=
  List.forall_mem_append.2 ⟨h, List.forall_mem_singleton.2 hv⟩

theorem Fit.replace (h : Fit es) (hv : v.Fits) : Fit (es.replace k v) := by
  induction es with
  | nil => exact h
  | cons e es ih =>
    obtain ⟨he, hes⟩ := List.forall_mem_cons.1 h
    unfold Entries.replace
    split
    · exact List.forall_mem_cons.2 ⟨hv, hes⟩
    · exact List.forall_mem_cons.2 ⟨he, ih hes⟩

/-! ## Changes of a document -/

section Descent

variable {f : Entries → Option Entries} {origin : Origin} {inner inner' : Entries}

/-- A table of the entries is changed. -/
theorem Fit.replaceInner (hf : Preserves f) (h : Fit es)
    (hk : es.lookup k = some (.table origin inner))
    (hinner : f inner = some inner') (origin' : Origin) :
    Fit (es.replace k (.table origin' inner')) :=
  h.replace (.table origin' (hf inner inner' (h.inner hk) hinner))

/-- The last table of an array of tables is changed. -/
theorem Fit.replaceLast (hf : Preserves f) (h : Fit es) {items : List Value}
    (hk : es.lookup k = some (.array items true))
    (hlast : items.getLast? = some (.table origin inner)) (hinner : f inner = some inner') :
    Fit (es.replace k (.array (items.dropLast ++ [.table origin inner']) true)) := by
  have hitems := h.items hk
  have hfits : Fit inner := by
    cases hitems _ (List.mem_of_getLast? hlast) with
    | table _ h => exact h
  refine h.replace (.array true (List.forall_mem_append.2 ⟨?_, List.forall_mem_singleton.2 ?_⟩))
  · exact fun v hv => hitems v ((List.dropLast_sublist items).subset hv)
  · exact .table origin (hf inner inner' hfits hinner)

end Descent

theorem preserves_atHeader {f : Entries → Option Entries} (hf : Preserves f) (path : List String) :
    Preserves (atHeader f path) := by
  induction path with
  | nil => exact hf
  | cons k path ih =>
    intro es es' hes h
    unfold atHeader at h
    split at h
    · obtain ⟨inner, hinner, rfl⟩ := exists_of_bind_eq_some h
      exact hes.add (.table .implied (ih [] inner fit_nil hinner))
    · cases h
    · rename_i hlookup
      obtain ⟨inner, hinner, rfl⟩ := exists_of_bind_eq_some h
      exact hes.replaceInner ih hlookup hinner _
    · rename_i hlookup
      split at h
      · rename_i hlast
        obtain ⟨inner, hinner, rfl⟩ := exists_of_bind_eq_some h
        exact hes.replaceLast ih hlookup hlast hinner
      · cases h
    · cases h

theorem preserves_openTable (k : String) : Preserves (openTable k) := by
  intro es es' hes h
  unfold openTable at h
  split at h
  · cases h
    exact hes.add (.table .header fit_nil)
  · rename_i hlookup
    cases h
    exact hes.replace (.table .header (hes.inner hlookup))
  · cases h

theorem preserves_openItem (k : String) : Preserves (openItem k) := by
  intro es es' hes h
  have hnew : (Value.table .header []).Fits := .table .header fit_nil
  unfold openItem at h
  split at h
  · cases h
    exact hes.add (.array true (List.forall_mem_singleton.2 hnew))
  · rename_i hlookup
    cases h
    exact hes.replace
      (.array true (List.forall_mem_append.2 ⟨hes.items hlookup, List.forall_mem_singleton.2 hnew⟩))
  · cases h

theorem preserves_assignFrom (hv : v.Fits) (made : Bool) (path : List String) :
    Preserves (assignFrom v made path) := by
  induction path generalizing made with
  | nil =>
    intro es es' hes h
    cases h
  | cons k path ih =>
    intro es es' hes h
    cases path with
    | nil =>
      unfold assignFrom at h
      split at h
      · cases h
        exact hes.add hv
      · cases h
    | cons k' path =>
      unfold assignFrom at h
      split at h
      · obtain ⟨inner, hinner, rfl⟩ := exists_of_bind_eq_some h
        exact hes.add (.table .dotted (ih true [] inner fit_nil hinner))
      · rename_i hlookup
        obtain ⟨inner, hinner, rfl⟩ := exists_of_bind_eq_some h
        exact hes.replaceInner (ih true) hlookup hinner _
      · rename_i hlookup
        obtain ⟨inner, hinner, rfl⟩ := exists_of_bind_eq_some h
        exact hes.replaceInner (ih false) hlookup hinner _
      · rename_i hlookup
        split at h
        · rename_i hlast
          obtain ⟨inner, hinner, rfl⟩ := exists_of_bind_eq_some h
          exact hes.replaceLast (ih false) hlookup hlast hinner
        · cases h
      · cases h

end Entries

/-! ## Reading -/

theorem lt_of_integer? {s : List Char} {n : Int} (h : integer? s = some n) : n < integerBound := by
  have hfits {m : Int} (h : fits? m = some n) : n < integerBound := by
    obtain ⟨rfl, -, hlt⟩ := fits?_eq_some_iff.1 h
    exact hlt
  unfold integer? at h
  split at h
  all_goals
    simp only [Option.bind_eq_bind, Option.bind_eq_some_iff] at h
    obtain ⟨ds, -, h⟩ := h
    exact hfits h

theorem lt_of_ofWord? {s : List Char} {n : Int} (h : Bare.ofWord? s = some (.integer n)) :
    n < integerBound := by
  unfold Bare.ofWord? at h
  split at h
  · cases h
  split at h
  · cases h
  split at h
  · cases h
  split at h
  · cases h
  · obtain ⟨m, hm, heq⟩ := Option.map_eq_some_iff.1 h
    cases heq
    exact lt_of_integer? hm

theorem lt_of_readBare {s r : List Char} {n : Int} (h : readBare s = some (.integer n, r)) :
    n < integerBound := by
  unfold readBare at h
  dsimp only at h
  split at h
  · split at h
    · split at h <;> cases h
    · obtain ⟨b, hb, heq⟩ := Option.map_eq_some_iff.1 h
      cases heq
      exact lt_of_ofWord? hb
  · obtain ⟨b, hb, heq⟩ := Option.map_eq_some_iff.1 h
    cases heq
    exact lt_of_ofWord? hb

theorem fits_readScalar (s : List Char) (v : Value) (r : List Char)
    (h : readScalar s = some (v, r)) : v.Fits := by
  unfold readScalar at h
  split at h
  · cases h
    exact .text _
  · split at h
    · cases h
      exact .boolean _
    · rename_i hbare
      cases h
      exact .integer (lt_of_readBare hbare)
    · cases h
      exact .float _
    · cases h
      exact .moment _
    · cases h

/-- **Every integer of a value that is read fits.** -/
theorem holds_fits : Holds Value.Fits Entries.Fit where
  scalar := fits_readScalar
  array _ h := .array false h
  table _ h := .table .inline h
  nil := Entries.fit_nil
  assign es es' path _ hes hv h := Entries.preserves_assignFrom hv true path es es' hes h

/-! ## Documents -/

/-- Carrying out a statement brings in no other integers. -/
theorem fit_carryOut {d d' : Document} {st : Statement} (hd : d.root.Fit) (hst : st.Has Value.Fits)
    (h : d.carryOut st = some d') :
    d'.root.Fit := by
  cases st with
  | pair path v =>
    obtain ⟨root, hroot, rfl⟩ := exists_of_bind_eq_some h
    exact Entries.preserves_atHeader (Entries.preserves_assignFrom hst true path) _ _ _ hd hroot
  | table path =>
    obtain ⟨root, hroot, rfl⟩ := exists_of_bind_eq_some h
    exact Entries.preserves_atHeader (Entries.preserves_openTable _) _ _ _ hd hroot
  | item path =>
    obtain ⟨root, hroot, rfl⟩ := exists_of_bind_eq_some h
    exact Entries.preserves_atHeader (Entries.preserves_openItem _) _ _ _ hd hroot

theorem fit_run {d d' : Document} {sts : List Statement} (hd : d.root.Fit)
    (hsts : ∀ st ∈ sts, st.Has Value.Fits) (h : d.run sts = some d') : d'.root.Fit := by
  induction sts generalizing d with
  | nil =>
    cases h
    exact hd
  | cons st sts ih =>
    obtain ⟨hst, hsts⟩ := List.forall_mem_cons.1 hsts
    obtain ⟨d₁, hfirst, hrest⟩ := Option.bind_eq_some_iff.1
      (show (d.carryOut st).bind (·.run sts) = some d' from h)
    exact ih (fit_carryOut hd hst hfirst) hsts hrest

/-- **Every integer of a document fits.** -/
theorem fit_parse? {s : String} {es : Entries} (h : parse? s = some es) : es.Fit := by
  unfold parse? at h
  simp only [Option.bind_eq_bind, Option.bind_eq_some_iff, Option.some.injEq] at h
  obtain ⟨sts, hsts, d, hd, rfl⟩ := h
  exact fit_run Entries.fit_nil (holds_fits.readStatements hsts) hd

end CommitGate.Toml

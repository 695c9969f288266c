import CommitGate.Proofs.FileSet
import CommitGate.Proofs.PathOrder
import Mathlib.Data.List.Dedup

/-!
# A file set as a map

The keys of a file set are lists of components: paths with the same components are one key. What
was put in last decides the content of a key, and what was put in first decides its spelling. The
entries stand in the order of their keys, so two sets with the same look-up have the same keys and
contents entry by entry.

Results:

* `get?_ofList_iff`: the look-up gives the content that was put in last.
* `mem_paths_ofList`: the paths are the spellings that were put in first.
* `size_ofList`: the size is the number of keys.
* `sameAs_iff_get?`: two sets are the same when their look-ups are.
* `Iteration.sizeHint_of_yields`, `get?_of_yields`: an iteration gives the files with the contents
  that are looked up, and its size hint is exact all the way.
* `finite_map`: all of this about files that are put in one after the other.
-/

namespace CommitGate.FileSet

/-! ## First and last -/

/-- Of the files of the list that have the components of the path, the last has the content. -/
def LastOf (files : List (Path × String)) (p : Path) (content : String) : Prop :=
  ∃ before q after, files = before ++ (q, content) :: after ∧ q.components = p.components ∧
    ∀ f ∈ after, f.1.components ≠ p.components

/-- The path is the spelling of the first file of the list that has its components. -/
def FirstOf (files : List (Path × String)) (p : Path) : Prop :=
  ∃ before content after, files = before ++ (p, content) :: after ∧
    ∀ f ∈ before, f.1.components ≠ p.components

/-- The key of a path, with the content that it has. -/
def keyed (f : Path × String) : List Component × String :=
  (f.1.components, f.2)

theorem lastOf_concat {files : List (Path × String)} {f : Path × String} {p : Path}
    {content : String} :
    LastOf (files ++ [f]) p content ↔
      f.1.components = p.components ∧ f.2 = content ∨
        f.1.components ≠ p.components ∧ LastOf files p content := by
  constructor
  · rintro ⟨before, q, after, hsplit, hq, hafter⟩
    rcases List.eq_nil_or_concat' after with rfl | ⟨after, g, rfl⟩
    · obtain ⟨-, hf⟩ := List.append_inj' hsplit rfl
      obtain rfl : f = (q, content) := (List.cons.inj hf).1
      exact .inl ⟨hq, rfl⟩
    · rw [← List.cons_append, ← List.append_assoc] at hsplit
      obtain ⟨rfl, hf⟩ := List.append_inj' hsplit rfl
      obtain rfl : f = g := (List.cons.inj hf).1
      refine .inr ⟨hafter f (by simp), before, q, after, rfl, hq, fun g hg => ?_⟩
      exact hafter g (List.mem_append_left _ hg)
  · rintro (⟨hf, rfl⟩ | ⟨hf, before, q, after, rfl, hq, hafter⟩)
    · exact ⟨files, f.1, [], rfl, hf, by simp⟩
    · refine ⟨before, q, after ++ [f], by simp, hq, fun g hg => ?_⟩
      rcases List.mem_append.1 hg with hg | hg
      · exact hafter g hg
      · rw [List.mem_singleton.1 hg]
        exact hf

/-- **The look-up gives the content that was put in last.** -/
theorem get?_ofList_iff {files : List (Path × String)} {p : Path} {content : String} :
    (ofList files).get? p = some content ↔ LastOf files p content := by
  induction files using List.reverseRecOn with
  | nil =>
    constructor
    · intro h
      cases h
    · rintro ⟨before, q, after, hsplit, -⟩
      simp at hsplit
  | append_singleton files f ih =>
    rw [ofList_concat, get?_insert, lastOf_concat, ← ih]
    by_cases h : p.components = f.1.components
    · simp [h]
    · simp [h, Ne.symm h]

theorem exists_lastOf_iff {files : List (Path × String)} {p : Path} :
    (∃ content, LastOf files p content) ↔ ∃ f ∈ files, f.1.components = p.components := by
  induction files using List.reverseRecOn with
  | nil => simp [LastOf]
  | append_singleton files f ih =>
    simp only [lastOf_concat, exists_or, List.mem_append, List.mem_singleton, or_and_right]
    by_cases h : f.1.components = p.components
    · simp [h]
    · simp [h, ih]

theorem get?_ofList_eq_none_iff {files : List (Path × String)} {p : Path} :
    (ofList files).get? p = none ↔ ∀ f ∈ files, f.1.components ≠ p.components := by
  have hsome : (∃ content, (ofList files).get? p = some content) ↔
      ∃ f ∈ files, f.1.components = p.components := by
    simp only [get?_ofList_iff]
    exact exists_lastOf_iff
  rw [← Option.isSome_iff_exists] at hsome
  rw [← Option.not_isSome_iff_eq_none, hsome]
  simp

theorem firstOf_concat {files : List (Path × String)} {f : Path × String} {p : Path} :
    FirstOf (files ++ [f]) p ↔
      FirstOf files p ∨ p = f.1 ∧ ∀ g ∈ files, g.1.components ≠ f.1.components := by
  constructor
  · rintro ⟨before, content, after, hsplit, hbefore⟩
    rcases List.eq_nil_or_concat' after with rfl | ⟨after, g, rfl⟩
    · obtain ⟨rfl, hf⟩ := List.append_inj' hsplit rfl
      obtain rfl : f = (p, content) := (List.cons.inj hf).1
      exact .inr ⟨rfl, hbefore⟩
    · rw [← List.cons_append, ← List.append_assoc] at hsplit
      obtain ⟨rfl, -⟩ := List.append_inj' hsplit rfl
      exact .inl ⟨before, content, after, rfl, hbefore⟩
  · rintro (⟨before, content, after, rfl, hbefore⟩ | ⟨rfl, hfiles⟩)
    · exact ⟨before, content, after ++ [f], by simp, hbefore⟩
    · exact ⟨files, f.2, [], rfl, hfiles⟩

theorem exists_firstOf_iff (files : List (Path × String)) (key : List Component) :
    (∃ p, FirstOf files p ∧ p.components = key) ↔ ∃ f ∈ files, f.1.components = key := by
  induction files using List.reverseRecOn with
  | nil => simp [FirstOf]
  | append_singleton files f ih =>
    simp only [firstOf_concat, or_and_right, exists_or, ih, List.mem_append, List.mem_singleton]
    constructor
    · rintro (hold | ⟨p, ⟨rfl, -⟩, hkey⟩)
      · exact .inl hold
      · exact .inr ⟨f, rfl, hkey⟩
    · rintro (hold | ⟨g, rfl, hkey⟩)
      · exact .inl hold
      · -- the key is new, or a file before has it
        by_cases hnew : ∀ h ∈ files, h.1.components ≠ g.1.components
        · exact .inr ⟨g.1, ⟨rfl, hnew⟩, hkey⟩
        · push Not at hnew
          obtain ⟨h, hh, hcomponents⟩ := hnew
          exact .inl ⟨h, hh, hcomponents.trans hkey⟩

/-- Putting a file in adds its spelling when the key is new, and else no spelling. -/
theorem mem_paths_insert {s : FileSet} (h : s.InOrder) {p q : Path} {content : String} :
    p ∈ (s.insert q content).paths ↔
      p ∈ s.paths ∨ p = q ∧ ∀ r ∈ s.paths, r.components ≠ q.components := by
  obtain ⟨es⟩ := s
  simp only [InOrder, insert, paths] at h ⊢
  induction es with
  | nil => simp [insertEntry]
  | cons e es ih =>
    obtain ⟨r, d⟩ := e
    obtain ⟨hr, hes⟩ := List.pairwise_cons.1 h
    rw [insertEntry]
    cases hqr : q.order r with
    | lt =>
      -- the path comes before all others, so that none of them has its key
      have hnew : ∀ r' ∈ ((r, d) :: es).map Prod.fst, r'.components ≠ q.components := by
        intro r' hr' hkey
        have heq : q.order r' = .eq := (Path.order_eq_eq_iff q r').2 hkey.symm
        have hlt : q.order r' = .lt := by
          rcases List.mem_cons.1 hr' with rfl | hr'
          · exact hqr
          · obtain ⟨f, hf, rfl⟩ := List.mem_map.1 hr'
            exact Path.order_trans hqr (hr f hf)
        rw [heq] at hlt
        cases hlt
      simp only [List.map_cons, List.mem_cons] at hnew ⊢
      tauto
    | eq =>
      have hkey : r.components = q.components := ((Path.order_eq_eq_iff q r).1 hqr).symm
      simp [hkey]
    | gt =>
      have hkey : r.components ≠ q.components := by
        intro hkey
        rw [(Path.order_eq_eq_iff q r).2 hkey.symm] at hqr
        cases hqr
      simp only [List.map_cons, List.mem_cons, ih hes, forall_eq_or_imp]
      tauto

/-- **The paths are the spellings that were put in first.** -/
theorem mem_paths_ofList {files : List (Path × String)} {p : Path} :
    p ∈ (ofList files).paths ↔ FirstOf files p := by
  induction files using List.reverseRecOn generalizing p with
  | nil =>
    constructor
    · intro h
      cases h
    · rintro ⟨before, content, after, hsplit, -⟩
      simp at hsplit
  | append_singleton files f ih =>
    have hnew : (∀ r ∈ (ofList files).paths, r.components ≠ f.1.components) ↔
        ∀ g ∈ files, g.1.components ≠ f.1.components := by
      have hiff := exists_firstOf_iff files f.1.components
      simp only [← ih] at hiff
      rw [← not_iff_not]
      push Not
      exact hiff
    rw [ofList_concat, mem_paths_insert (inOrder_ofList files), firstOf_concat, ih, hnew]

/-! ## Order and size -/

theorem pairwise_paths {s : FileSet} (h : s.InOrder) : s.paths.Pairwise Path.Before := by
  refine List.pairwise_map.2 (h.imp fun hlt => ?_)
  exact Path.order_eq_lt_iff.1 hlt

/-- No two paths of a set in order have the same components. -/
theorem nodup_keys {s : FileSet} (h : s.InOrder) : (s.paths.map Path.components).Nodup := by
  refine List.pairwise_map.2 (List.pairwise_map.2 (h.imp ?_))
  intro f g hlt hkey
  rw [(Path.order_eq_eq_iff f.1 g.1).2 hkey] at hlt
  cases hlt

/-- **The size is the number of keys that were put in.** -/
theorem size_ofList (files : List (Path × String)) :
    (ofList files).size = (files.map fun f => f.1.components).dedup.length := by
  have hnodup := nodup_keys (inOrder_ofList files)
  have hperm : ((ofList files).paths.map Path.components).Perm
      (files.map fun f => f.1.components).dedup := by
    refine (List.perm_ext_iff_of_nodup hnodup (List.nodup_dedup _)).2 fun key => ?_
    rw [List.mem_dedup, List.mem_map, List.mem_map]
    simp only [mem_paths_ofList]
    exact exists_firstOf_iff files key
  have hlength := hperm.length_eq
  rw [List.length_map, paths, List.length_map] at hlength
  exact hlength

/-! ## Equality -/

/-- Entries of a set in order that have the same key are one. -/
theorem eq_of_components {s : FileSet} (h : s.InOrder) {f g : Path × String} (hf : f ∈ s.entries)
    (hg : g ∈ s.entries) (hkey : f.1.components = g.1.components) : f = g := by
  have hnodup := nodup_keys h
  rw [paths, List.map_map] at hnodup
  exact List.inj_on_of_nodup_map hnodup hf hg hkey

theorem get?_eq_some_iff {s : FileSet} (h : s.InOrder) {p : Path} {content : String} :
    s.get? p = some content ↔ (p.components, content) ∈ s.entries.map keyed := by
  constructor
  · intro hget
    obtain ⟨f, hf, hkey, rfl⟩ := exists_mem_of_get? hget
    exact List.mem_map.2 ⟨f, hf, Prod.ext hkey rfl⟩
  · intro hmem
    obtain ⟨f, hf, hkeyed⟩ := List.mem_map.1 hmem
    obtain ⟨hkey, rfl⟩ := Prod.mk.inj hkeyed
    have hsome : (s.get? p).isSome := by
      rw [get?, Option.isSome_map, List.find?_isSome]
      exact ⟨f, hf, by rw [decide_eq_true_eq, Path.order_eq_eq_iff, hkey]⟩
    obtain ⟨content, hget⟩ := Option.isSome_iff_exists.1 hsome
    obtain ⟨g, hg, hgkey, rfl⟩ := exists_mem_of_get? hget
    rw [hget, eq_of_components h hf hg (hkey.trans hgkey.symm)]

theorem sameAs_iff {s t : FileSet} :
    s.sameAs t = true ↔ s.entries.map keyed = t.entries.map keyed := by
  obtain ⟨es⟩ := s
  obtain ⟨fs⟩ := t
  simp only [sameAs, size]
  induction es generalizing fs with
  | nil => cases fs <;> simp
  | cons e es ih =>
    cases fs with
    | nil => simp
    | cons f fs =>
      simp only [List.length_cons, Nat.add_right_cancel_iff, List.zip_cons_cons, List.all_cons,
        Bool.and_eq_true, decide_eq_true_eq, Path.order_eq_eq_iff, List.map_cons, List.cons.injEq,
        keyed, Prod.mk.injEq, ← ih fs]
      tauto

/-- The keys of a set in order, with their contents, stand in order. -/
theorem pairwise_keyed {s : FileSet} (h : s.InOrder) :
    (s.entries.map keyed).Pairwise fun a b => List.compareLex Component.order a.1 b.1 = .lt :=
  List.pairwise_map.2 h

/-- **Two sets are the same when their look-ups are.** -/
theorem sameAs_iff_get? {s t : FileSet} (hs : s.InOrder) (ht : t.InOrder) :
    s.sameAs t = true ↔ ∀ p, s.get? p = t.get? p := by
  rw [sameAs_iff]
  constructor
  · intro h p
    refine Option.ext fun content => ?_
    rw [get?_eq_some_iff hs, get?_eq_some_iff ht, h]
  · intro h
    have hsub {s t : FileSet} (hs : s.InOrder) (ht : t.InOrder) (h : ∀ p, s.get? p = t.get? p) :
        s.entries.map keyed ⊆ t.entries.map keyed := by
      intro a ha
      obtain ⟨f, -, rfl⟩ := List.mem_map.1 ha
      exact (get?_eq_some_iff ht).1 (h f.1 ▸ (get?_eq_some_iff hs).2 ha)
    have hasymm {a b : List Component × String}
        (hab : List.compareLex Component.order a.1 b.1 = .lt) :
        ¬ List.compareLex Component.order b.1 a.1 = .lt := by
      rw [Std.OrientedCmp.gt_of_lt hab]
      decide
    have hnodup {s : FileSet} (hs : s.InOrder) : (s.entries.map keyed).Nodup := by
      refine (pairwise_keyed hs).imp ?_
      rintro a b hlt rfl
      exact hasymm hlt hlt
    have hperm : (s.entries.map keyed).Perm (t.entries.map keyed) :=
      (List.perm_ext_iff_of_nodup (hnodup hs) (hnodup ht)).2 fun a =>
        ⟨fun ha => hsub hs ht h ha, fun ha => hsub ht hs (fun p => (h p).symm) ha⟩
    exact hperm.eq_of_pairwise (fun a b _ _ hab hba => absurd hba (hasymm hab))
      (pairwise_keyed hs) (pairwise_keyed ht)

/-- Files with different keys may be put in in any order. -/
theorem sameAs_of_perm {files files' : List (Path × String)} (h : files.Perm files')
    (hdistinct : files.Pairwise fun f g => f.1.components ≠ g.1.components) :
    (ofList files).sameAs (ofList files') = true := by
  have hd : Distinct files := by
    intro f hf g hg hkey
    exact List.inj_on_of_nodup_map (List.pairwise_map.2 hdistinct) hf hg hkey
  have hd' : Distinct files' := fun f hf g hg => hd f (h.mem_iff.2 hf) g (h.mem_iff.2 hg)
  refine (sameAs_iff_get? (inOrder_ofList files) (inOrder_ofList files')).2 fun p => ?_
  refine Option.ext fun content => ?_
  rw [get?_ofList hd, get?_ofList hd']
  simp only [h.mem_iff]

/-! ## Iterating -/

namespace Iteration

/-- The iteration gives these files one by one, and then ends. -/
inductive Yields : Iteration → List (Path × String) → Prop where
  | done {i : Iteration} (h : i.next? = none) : Yields i []
  | more {i i' : Iteration} {f : Path × String} {files : List (Path × String)}
      (h : i.next? = some (f, i')) (rest : Yields i' files) : Yields i (f :: files)

theorem yields_rest (files : List (Path × String)) : Yields ⟨files⟩ files := by
  induction files with
  | nil => exact .done rfl
  | cons f files ih => exact .more rfl ih

theorem eq_rest_of_yields {i : Iteration} {files : List (Path × String)} (h : Yields i files) :
    files = i.rest := by
  induction h with
  | @done i h =>
    obtain ⟨rest⟩ := i
    cases rest with
    | nil => rfl
    | cons f rest => cases h
  | @more i i' f files h rest ih =>
    obtain ⟨rest⟩ := i
    cases rest with
    | nil => cases h
    | cons g rest =>
      cases h
      rw [ih]

/-- **The size hint of an iteration is the number of files that it gives.** -/
theorem sizeHint_of_yields {i : Iteration} {files : List (Path × String)} (h : Yields i files) :
    i.sizeHint = (files.length, some files.length) := by
  rw [eq_rest_of_yields h]
  rfl

end Iteration

/-- An iteration gives the paths in their order, each with its content. -/
theorem get?_of_yields {s : FileSet} (h : s.InOrder) {files : List (Path × String)}
    (hyields : s.iterate.Yields files) :
    files.map Prod.fst = s.paths ∧ ∀ f ∈ files, s.get? f.1 = some f.2 := by
  obtain rfl : files = s.entries := Iteration.eq_rest_of_yields hyields
  refine ⟨rfl, fun f hf => ?_⟩
  rw [get?_eq_some_iff h]
  exact List.mem_map_of_mem hf

/-! ## The map -/

theorem contains_ofList_iff {files : List (Path × String)} {p : Path} :
    (ofList files).contains p = true ↔ ∃ f ∈ files, f.1.components = p.components := by
  rw [contains, Option.isSome_iff_exists]
  simp only [get?_ofList_iff]
  exact exists_lastOf_iff

/-- **Files that are put in one after the other make a finite map over components.** The paths stand
in strict order, and no two of them have the same components; each is spelled as it was put in
first. A path has the content that was put in last under its components, and none when nothing was.
The size is the number of different components. An iteration gives every path with its content in
the order of the paths, and tells exactly how many files are still to come. Two sets are the same
exactly when the same contents were put in last under the same components, so files with different
components may come in any order. Slashes and points that separate nothing are no components. -/
theorem finite_map (files : List (Path × String)) :
    let s := ofList files
    (s.paths.Pairwise Path.Before ∧
      s.paths.Pairwise fun p q => p.components ≠ q.components) ∧
    (∀ p, p ∈ s.paths ↔ FirstOf files p) ∧
    (∀ p, (∀ content, s.get? p = some content ↔ LastOf files p content) ∧
      (s.get? p = none ↔ ∀ f ∈ files, f.1.components ≠ p.components) ∧
      (s.contains p = true ↔ ∃ f ∈ files, f.1.components = p.components)) ∧
    (s.size = (files.map fun f => f.1.components).dedup.length ∧
      (s.isEmpty = true ↔ s.size = 0)) ∧
    ((∃ given, s.iterate.Yields given) ∧
      (∀ given, s.iterate.Yields given →
        given.map Prod.fst = s.paths ∧ ∀ f ∈ given, s.get? f.1 = some f.2) ∧
      ∀ (i : Iteration) given, i.Yields given →
        i.sizeHint = (given.length, some given.length)) ∧
    (∀ files', s.sameAs (ofList files') = true ↔
      ∀ p content, LastOf files p content ↔ LastOf files' p content) ∧
    (∀ files', files.Perm files' →
      (files.Pairwise fun f g => f.1.components ≠ g.1.components) →
      s.sameAs (ofList files') = true) ∧
    ∀ front back, Path.componentsOf (front ++ Path.slash :: Path.slash :: back) =
        Path.componentsOf (front ++ Path.slash :: back) ∧
      Path.componentsOf (front ++ Path.slash :: Path.point :: Path.slash :: back) =
        Path.componentsOf (front ++ Path.slash :: back) ∧
      (front ≠ [] → Path.componentsOf (front ++ [Path.slash]) = Path.componentsOf front ∧
        Path.componentsOf (front ++ [Path.slash, Path.point]) = Path.componentsOf front) := by
  intro s
  have horder : s.InOrder := inOrder_ofList files
  refine ⟨⟨pairwise_paths horder, List.pairwise_map.1 (nodup_keys horder)⟩,
    fun p => mem_paths_ofList, fun p => ?_, ⟨size_ofList files, ?_⟩, ⟨?_, ?_, ?_⟩, ?_, ?_,
    Path.sameComponents_idle⟩
  · exact ⟨fun content => get?_ofList_iff, get?_ofList_eq_none_iff, contains_ofList_iff⟩
  · rw [isEmpty, size, List.isEmpty_iff, List.length_eq_zero_iff]
  · exact ⟨s.entries, Iteration.yields_rest s.entries⟩
  · exact fun given hgiven => get?_of_yields horder hgiven
  · exact fun i given hgiven => Iteration.sizeHint_of_yields hgiven
  · intro files'
    rw [sameAs_iff_get? horder (inOrder_ofList files')]
    refine forall_congr' fun p => ?_
    rw [Option.ext_iff]
    simp only [s, get?_ofList_iff]
  · exact fun files' hperm hdistinct => sameAs_of_perm hperm hdistinct

/-- Three files of which two share their components. -/
def respelled : List (Path × String) :=
  [(⟨"b//x"⟩, "old"), (⟨"./a"⟩, "a"), (⟨"b/./x/"⟩, "new")]

/-- The first spelling and the last content are kept. -/
theorem finite_map_respelled :
    ⟨"b//x"⟩ ∈ (ofList respelled).paths ∧ (ofList respelled).get? ⟨"b/x"⟩ = some "new" := by
  obtain ⟨-, hpaths, hget, -⟩ := finite_map respelled
  refine ⟨(hpaths _).2 ⟨[], "old", respelled.tail, rfl, by simp⟩, ((hget _).1 _).2 ?_⟩
  exact ⟨respelled.dropLast, ⟨"b/./x/"⟩, [], rfl, by decide +kernel, by simp⟩

end CommitGate.FileSet

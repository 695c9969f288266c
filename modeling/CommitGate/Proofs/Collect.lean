import CommitGate.Collect
import CommitGate.Proofs.FileSet
import CommitGate.Proofs.Resolution
import Mathlib.Data.List.TakeWhile

/-!
# What is collected

A directory holds every name once, and the walk meets every regular file that real directories lead
to under names that are kept. So the files collected are known from looking at single paths below
the root.

Results:

* `mem_visits`: the files the walk meets in a tree are those the tree holds at names that are kept.
* `collect_exact`: collecting succeeds when the root is there, with exactly the files that belong to
  the project.
-/

namespace CommitGate

open Text (Octets)

/-! ## Proper trees -/

namespace Tree

/-- Every directory holds a name only once, and only names that an entry may have. -/
def Proper : Tree → Prop
  | .empty => True
  | .file n _ _ _ r => IsName n ∧ n ∉ r.names ∧ r.Proper
  | .link n _ _ r => IsName n ∧ n ∉ r.names ∧ r.Proper
  | .dir n d r => IsName n ∧ n ∉ r.names ∧ d.Proper ∧ r.Proper

instance decidableProper : (t : Tree) → Decidable t.Proper
  | .empty => inferInstanceAs (Decidable True)
  | .file n _ _ _ r =>
    have := decidableProper r
    inferInstanceAs (Decidable (IsName n ∧ n ∉ r.names ∧ r.Proper))
  | .link n _ _ r =>
    have := decidableProper r
    inferInstanceAs (Decidable (IsName n ∧ n ∉ r.names ∧ r.Proper))
  | .dir n d r =>
    have := decidableProper d
    have := decidableProper r
    inferInstanceAs (Decidable (IsName n ∧ n ∉ r.names ∧ d.Proper ∧ r.Proper))

theorem mem_names_of_find? {t : Tree} {n : RawText} {e : Entry} (h : t.find? n = some e) :
    n ∈ t.names := by
  induction t with
  | empty => cases h
  | file m _ _ _ r ih => by_cases hm : m = n <;> simp_all [find?, names]
  | link m _ _ r ih => by_cases hm : m = n <;> simp_all [find?, names]
  | dir m _ r _ ih => by_cases hm : m = n <;> simp_all [find?, names]

theorem Proper.find? {t : Tree} (ht : t.Proper) {n : RawText} {e : Entry} (h : t.find? n = some e) :
    IsName n ∧ ∀ u, e = .dir u → u.Proper := by
  induction t with
  | empty => cases h
  | file m _ c k r ih =>
    obtain ⟨hm, -, hr⟩ := ht
    rw [Tree.find?] at h
    split at h
    · next hmn => cases h; exact ⟨hmn ▸ hm, fun u hu => by cases hu⟩
    · exact ih hr h
  | link m _ g r ih =>
    obtain ⟨hm, -, hr⟩ := ht
    rw [Tree.find?] at h
    split at h
    · next hmn => cases h; exact ⟨hmn ▸ hm, fun u hu => by cases hu⟩
    · exact ih hr h
  | dir m d r _ ih =>
    obtain ⟨hm, -, hd, hr⟩ := ht
    rw [Tree.find?] at h
    split at h
    · next hmn => cases h; exact ⟨hmn ▸ hm, fun u hu => by cases hu; exact hd⟩
    · exact ih hr h

theorem Proper.get? {t : Tree} (ht : t.Proper) {names : List RawText} {e : Entry}
    (h : t.get? names = some e) :
    (∀ n ∈ names, IsName n) ∧ ∀ u, e = .dir u → u.Proper := by
  induction names generalizing t with
  | nil => cases h; exact ⟨by simp, fun u hu => by cases hu; exact ht⟩
  | cons n names ih =>
    rw [get?_cons] at h
    split at h
    · next d hd =>
      obtain ⟨hn, hu⟩ := ht.find? hd
      obtain ⟨hnames, he⟩ := ih (hu d rfl) h
      exact ⟨by simpa using ⟨hn, hnames⟩, he⟩
    · split at h
      · next hnil =>
        obtain ⟨hn, hu⟩ := ht.find? h
        exact ⟨by simpa [hnil] using hn, hu⟩
      · cases h

/-! ## The walk -/

theorem mem_insertNamed {α : Type} {x y : RawText × α} {xs : List (RawText × α)} :
    y ∈ insertNamed x xs ↔ y = x ∨ y ∈ xs := by
  induction xs with
  | nil => simp [insertNamed]
  | cons z zs ih =>
    rw [insertNamed]
    split
    · rw [List.mem_cons, ih, List.mem_cons]
      tauto
    · simp

theorem mem_sortNamed {α : Type} {y : RawText × α} {xs : List (RawText × α)} :
    y ∈ sortNamed xs ↔ y ∈ xs := by
  induction xs with
  | nil => simp [sortNamed]
  | cons x xs ih =>
    rw [sortNamed, List.foldr_cons, mem_insertNamed, ← sortNamed, ih, List.mem_cons]

theorem mem_flatMap_sortNamed {v : Visit} {xs : List (RawText × List Visit)} :
    v ∈ (sortNamed xs).flatMap (·.2) ↔ ∃ x ∈ xs, v ∈ x.2 := by
  simp [List.mem_flatMap, mem_sortNamed]

/-- Where a tree holds a file: its first entry is that file, or a directory that holds it, or the
other entries hold it. -/
theorem get?_cons_eq_file {n : RawText} {e : Entry} {r : Tree} (hn : n ∉ r.names)
    {names : List RawText} {k : Nat} {c : Octets} {m : Nat} :
    (cons n e r).get? names = some (.file k c m) ↔
      (names = [n] ∧ e = .file k c m) ∨
        (∃ d rest, e = .dir d ∧ names = n :: rest ∧ d.get? rest = some (.file k c m)) ∨
        r.get? names = some (.file k c m) := by
  cases names with
  | nil => simp [get?]
  | cons x rest =>
    rw [get?_cons, get?_cons, find?_cons]
    by_cases hx : n = x
    · subst hx
      have hr : r.find? n = none := by
        cases hf : r.find? n with
        | none => rfl
        | some e => exact absurd (mem_names_of_find? hf) hn
      rw [if_pos rfl, hr]
      cases e with
      | file k' c' m' => by_cases hrest : rest = [] <;> simp [hrest]
      | link k' g => by_cases hrest : rest = [] <;> simp [hrest]
      | dir d => simp
    · simp [if_neg hx, Ne.symm hx]

/-- An entry that is kept brings its own visits, in front of those of the other entries. -/
theorem exists_mem_ite {b : Bool} {n : RawText} {own : List Visit}
    {others : List (RawText × List Visit)} {v : Visit} :
    (∃ x ∈ if b then (n, own) :: others else others, v ∈ x.2) ↔
      b = true ∧ v ∈ own ∨ ∃ x ∈ others, v ∈ x.2 := by
  cases b <;> simp

/-- At names that are kept, below the path, the tree holds the file of the visit. -/
def Meets (s : Selection) (t : Tree) (p : Path) (v : Visit) : Prop :=
  ∃ names k m, t.get? names = some (.file k v.content m) ∧ (∀ n ∈ names, s.keeps n = true) ∧
    v.path = p.below names

theorem not_meets_empty {s : Selection} {p : Path} {v : Visit} : ¬ empty.Meets s p v := by
  rintro ⟨names, k, m, h, -⟩
  cases names with
  | nil => cases h
  | cons n names => simp [get?_cons, find?] at h

section Meets

variable {s : Selection} {n : RawText} {r : Tree} (hn : n ∉ r.names) {p : Path} {v : Visit}

include hn

theorem meets_file {k : Nat} {c : Octets} {m : Nat} :
    (file n k c m r).Meets s p v ↔ s.keeps n = true ∧ v = ⟨p.child n, c⟩ ∨ r.Meets s p v := by
  constructor
  · rintro ⟨names, k', m', h, hkeep, hp⟩
    obtain ⟨rfl, he⟩ | ⟨d, rest, he, -⟩ | h := (get?_cons_eq_file (e := .file k c m) hn).1 h
    · cases he
      cases v
      cases hp
      exact .inl ⟨hkeep n List.mem_cons_self, rfl⟩
    · cases he
    · exact .inr ⟨names, k', m', h, hkeep, hp⟩
  · rintro (⟨hk, rfl⟩ | ⟨names, k', m', h, hkeep⟩)
    · exact ⟨[n], k, m, (get?_cons_eq_file (e := .file k c m) hn).2 (.inl ⟨rfl, rfl⟩),
        by simpa using hk, rfl⟩
    · exact ⟨names, k', m', (get?_cons_eq_file (e := .file k c m) hn).2 (.inr (.inr h)), hkeep⟩

theorem meets_link {k : Nat} {g : RawText} :
    (link n k g r).Meets s p v ↔ r.Meets s p v := by
  constructor
  · rintro ⟨names, k', m, h, hkeep⟩
    obtain ⟨-, he⟩ | ⟨d, rest, he, -⟩ | h := (get?_cons_eq_file (e := .link k g) hn).1 h
    · cases he
    · cases he
    · exact ⟨names, k', m, h, hkeep⟩
  · rintro ⟨names, k', m, h, hkeep⟩
    exact ⟨names, k', m, (get?_cons_eq_file (e := .link k g) hn).2 (.inr (.inr h)), hkeep⟩

theorem meets_dir {d : Tree} :
    (dir n d r).Meets s p v ↔ s.keeps n = true ∧ d.Meets s (p.child n) v ∨ r.Meets s p v := by
  constructor
  · rintro ⟨names, k, m, h, hkeep, hp⟩
    obtain ⟨-, he⟩ | ⟨d', rest, he, rfl, h⟩ | h := (get?_cons_eq_file (e := .dir d) hn).1 h
    · cases he
    · cases he
      have hrest : ∀ x ∈ rest, s.keeps x = true := fun x hx => hkeep x (List.mem_cons_of_mem n hx)
      exact .inl ⟨hkeep n List.mem_cons_self, rest, k, m, h, hrest, hp⟩
    · exact .inr ⟨names, k, m, h, hkeep, hp⟩
  · rintro (⟨hk, rest, k, m, h, hkeep, hp⟩ | ⟨names, k, m, h, hkeep⟩)
    · exact ⟨n :: rest, k, m, (get?_cons_eq_file (e := .dir d) hn).2
        (.inr (.inl ⟨d, rest, rfl, rfl, h⟩)), by simpa [hk] using hkeep, hp⟩
    · exact ⟨names, k, m, (get?_cons_eq_file (e := .dir d) hn).2 (.inr (.inr h)), hkeep⟩

end Meets

/-- The walk visits what the tree holds at names that are kept. -/
theorem mem_visits {s : Selection} {t : Tree} (ht : t.Proper) {p : Path} {v : Visit} :
    v ∈ t.visits s p ↔ t.Meets s p v := by
  rw [visits, mem_flatMap_sortNamed]
  induction t generalizing p with
  | empty => simp [visitsByEntry, not_meets_empty]
  | file n k c m r ih =>
    obtain ⟨-, hn, hr⟩ := ht
    rw [visitsByEntry, exists_mem_ite, ih hr, meets_file hn, List.mem_singleton]
  | link n k g r ih =>
    obtain ⟨-, hn, hr⟩ := ht
    rw [visitsByEntry, ih hr, meets_link hn]
  | dir n d r ihd ih =>
    obtain ⟨-, hn, hd, hr⟩ := ht
    rw [visitsByEntry, exists_mem_ite, ih hr, mem_flatMap_sortNamed, ihd hd, meets_dir hn]

end Tree

/-! ## Extensions -/

/-- What follows the last point of a name; all of it when it has none. -/
def IsExtension (e name : String) : Prop :=
  '.' ∉ e.toList ∧ (e = name ∨ ∃ stem, name = stem ++ "." ++ e)

theorem isExtension_extension (name : String) : IsExtension (Selection.extension name) name := by
  rw [Selection.extension]
  refine ⟨?_, ?_⟩
  · rw [String.toList_ofList, List.mem_reverse]
    intro h
    simpa using List.all_eq_true.1 List.all_takeWhile _ h
  · have hsplit := List.takeWhile_append_dropWhile (p := fun c => decide (c ≠ '.'))
        (l := name.toList.reverse)
    cases hd : name.toList.reverse.dropWhile fun c => decide (c ≠ '.') with
    | nil =>
      left
      rw [hd, List.append_nil] at hsplit
      rw [hsplit, List.reverse_reverse, String.ofList_toList]
    | cons c stem =>
      right
      have hc : c = '.' := by
        have := List.head?_dropWhile_not (fun c => decide (c ≠ '.')) name.toList.reverse
        rw [hd] at this
        simpa using this
      refine ⟨String.ofList stem.reverse, String.toList_injective ?_⟩
      rw [hd, hc] at hsplit
      generalize name.toList.reverse.takeWhile (fun c => decide (c ≠ '.')) = w at hsplit
      have hname := congrArg List.reverse hsplit
      rw [List.reverse_reverse] at hname
      rw [← hname]
      simp

theorem IsExtension.eq {e name : String} (h : IsExtension e name) :
    Selection.extension name = e := by
  rw [Selection.extension]
  obtain ⟨hdot, rfl | ⟨stem, rfl⟩⟩ := h
  · rw [List.takeWhile_eq_self_iff.2 (by simpa using fun c hc => ne_of_mem_of_not_mem hc hdot),
      List.reverse_reverse, String.ofList_toList]
  · have hpos : ∀ c ∈ e.toList.reverse, decide (c ≠ '.') = true := by
      simpa using fun c hc => ne_of_mem_of_not_mem hc hdot
    have hrev : (stem ++ "." ++ e).toList.reverse =
        e.toList.reverse ++ '.' :: stem.toList.reverse := by simp
    rw [hrev, List.takeWhile_append_of_pos hpos]
    simp

/-! ## Collecting -/

namespace Selection

theorem keeps_iff (s : Selection) (n : RawText) :
    s.keeps n = true ↔ n.shown.toList.head? ≠ some '.' ∧ n.shown ∉ s.exclude := by
  simp [keeps]

theorem allows_iff (s : Selection) (p : Path) :
    s.allows p = true ↔
      s.extensions = [] ∨ ∃ name, p.fileName? = some name ∧
        ∃ e ∈ s.extensions, IsExtension e name.shown := by
  obtain ⟨es, ex⟩ := s
  rw [allows]
  cases es with
  | nil => simp
  | cons e es =>
    cases hp : p.fileName? with
    | none => simp
    | some name =>
      simp only [decide_eq_true_eq, reduceCtorEq, false_or, Option.some.injEq, exists_eq_left']
      constructor
      · intro h
        exact ⟨_, h, isExtension_extension name.shown⟩
      · rintro ⟨e', he', hx⟩
        rw [hx.eq]
        exact he'

end Selection

namespace Host

/-- At `names` below the root stands a file of the project: only real directories are on the way, it
is a regular file itself, no name on the way is hidden or excluded, and its extension is allowed. -/
structure Belongs (h : Host) (s : Selection) (root : Path) (names : List RawText)
    (content : Octets) : Prop where
  directories : ∀ k, 0 < k → k < names.length →
    ∃ t, h.ownEntry (root.below (names.take k)) = .ok (.dir t)
  file : ∃ node mode, h.ownEntry (root.below names) = .ok (.file node content mode)
  visible : ∀ n ∈ names, n.shown.toList.head? ≠ some '.' ∧ n.shown ∉ s.exclude
  allowed : s.extensions = [] ∨
    ∃ name, (root.below names).fileName? = some name ∧
      ∃ e ∈ s.extensions, IsExtension e name.shown

variable {h : Host} {s : Selection} {root : Path} {names : List RawText} {content : Octets}

/-- Below the root, a file belongs to the project when the tree that the root leads to holds it. -/
theorem belongs_iff_of_ne_nil {e : Entry} (hroot : h.entry root = .ok e)
    (hn : ∀ n ∈ names, IsName n) (hne : names ≠ []) :
    h.Belongs s root names content ↔
      ∃ u k m, e = .dir u ∧ u.get? names = some (.file k content m) ∧
        (∀ n ∈ names, s.keeps n = true) ∧ s.allows (root.below names) = true := by
  simp only [Selection.keeps_iff, Selection.allows_iff]
  constructor
  · rintro ⟨hdirs, ⟨k, m, hm⟩, hvis, hallow⟩
    obtain ⟨u, hu, hget⟩ := (ownEntry_below_iff hroot hn hne).1 ⟨hdirs, hm⟩
    exact ⟨u, k, m, hu, hget, hvis, hallow⟩
  · rintro ⟨u, k, m, hu, hget, hvis, hallow⟩
    obtain ⟨hdirs, hm⟩ := (ownEntry_below_iff hroot hn hne).2 ⟨u, hu, hget⟩
    exact ⟨hdirs, ⟨k, m, hm⟩, hvis, hallow⟩

theorem belongs_nil_iff :
    h.Belongs s root [] content ↔ (∃ k m, h.ownEntry root = .ok (.file k content m)) ∧
      s.allows root = true := by
  rw [Selection.allows_iff]
  constructor
  · intro hb
    exact ⟨hb.file, hb.allowed⟩
  · rintro ⟨hm, ha⟩
    exact ⟨fun k hk hk' => by simp at hk', hm, by simp, ha⟩

/-- Where the root leads to a directory and is no file itself, its tree holds what belongs to the
project. -/
theorem mem_visits_of_dir (wf : h.tree.Proper) {u : Tree} (hroot : h.entry root = .ok (.dir u))
    (hown : ∀ k c m, h.ownEntry root ≠ .ok (.file k c m)) {v : Visit} :
    v ∈ u.visits s root ∧ s.allows v.path = true ↔
      ∃ names, (∀ n ∈ names, IsName n) ∧ v.path = root.below names ∧
        h.Belongs s root names v.content := by
  have hu : u.Proper := by
    obtain ⟨d, -, hd⟩ := entry_eq_ok_iff.1 hroot
    exact (wf.get? hd).2 u rfl
  rw [Tree.mem_visits hu]
  constructor
  · rintro ⟨⟨names, k, m, hget, hkeep, hp⟩, ha⟩
    have hn := (hu.get? hget).1
    have hne : names ≠ [] := by
      rintro rfl
      cases hget
    exact ⟨names, hn, hp, (belongs_iff_of_ne_nil hroot hn hne).2 
      ⟨u, k, m, rfl, hget, hkeep, hp ▸ ha⟩⟩
  · rintro ⟨names, hn, hp, hb⟩
    have hne : names ≠ [] := by
      rintro rfl
      obtain ⟨k, m, hm⟩ := (belongs_nil_iff.1 hb).1
      exact hown k _ m hm
    obtain ⟨u', k, m, hu', hget, hkeep, ha⟩ := (belongs_iff_of_ne_nil hroot hn hne).1 hb
    cases hu'
    exact ⟨⟨names, k, m, hget, hkeep, hp⟩, hp ▸ ha⟩

/-- Where the root leads to no directory, nothing but the root itself can belong to the project. -/
theorem eq_nil_of_belongs {e : Entry} (hroot : h.entry root = .ok e) (he : ∀ u, e ≠ .dir u)
    (hn : ∀ n ∈ names, IsName n) (hb : h.Belongs s root names content) : names = [] := by
  by_contra hne
  obtain ⟨u, -, -, hu, -⟩ := (belongs_iff_of_ne_nil hroot hn hne).1 hb
  exact he u hu

/-- A root that is a file belongs to the project by its extension alone. -/
theorem mem_visits_of_file {k : Nat} {c : Octets} {m : Nat}
    (hown : h.ownEntry root = .ok (.file k c m))
    {v : Visit} :
    v = ⟨root, c⟩ ∧ s.allows v.path = true ↔
      ∃ names, (∀ n ∈ names, IsName n) ∧ v.path = root.below names ∧
        h.Belongs s root names v.content := by
  have hroot := entry_of_ownEntry hown (by simp)
  constructor
  · rintro ⟨rfl, ha⟩
    exact ⟨[], by simp, rfl, belongs_nil_iff.2 ⟨⟨k, m, hown⟩, ha⟩⟩
  · rintro ⟨names, hn, hp, hb⟩
    obtain rfl := eq_nil_of_belongs hroot (by simp) hn hb
    obtain ⟨⟨k', m', hm'⟩, ha⟩ := belongs_nil_iff.1 hb
    rw [hown] at hm'
    cases v
    cases hm'
    cases hp
    exact ⟨rfl, ha⟩

/-- Nothing belongs to a project whose root is a link that leads to no directory. -/
theorem not_belongs_of_link {k : Nat} {g : RawText} (hown : h.ownEntry root = .ok (.link k g))
    {e : Entry} (hroot : h.entry root = .ok e)
    (he : ∀ u, e ≠ .dir u) (hn : ∀ n ∈ names, IsName n) : ¬ h.Belongs s root names content := by
  intro hb
  obtain rfl := eq_nil_of_belongs hroot he hn hb
  obtain ⟨⟨k, m, hm⟩, -⟩ := belongs_nil_iff.1 hb
  rw [hown] at hm
  cases hm

/-- The files that the walk meets and that have an allowed extension are those that belong to the
project. -/
theorem mem_visits_iff (wf : h.tree.Proper) {vs : List Visit} (hv : h.visits s root = .ok vs)
    {v : Visit} :
    v ∈ vs ∧ s.allows v.path = true ↔
      ∃ names, (∀ n ∈ names, IsName n) ∧ v.path = root.below names ∧
        h.Belongs s root names v.content := by
  rw [visits] at hv
  cases hown : h.ownEntry root with
  | error f => rw [hown] at hv; cases hv
  | ok e =>
    rw [hown] at hv
    cases e with
    | file k c m =>
      cases hv
      rw [List.mem_singleton]
      exact mem_visits_of_file hown
    | dir u =>
      cases hv
      exact mem_visits_of_dir wf (entry_of_ownEntry hown (by simp)) (by simp [hown])
    | link k g =>
      cases hroot : h.entry root with
      | error f => rw [hroot] at hv; cases hv
      | ok e =>
        rw [hroot] at hv
        cases e with
        | dir u =>
          cases hv
          exact mem_visits_of_dir wf hroot (by simp [hown])
        | file k c m =>
          cases hv
          simp only [List.not_mem_nil, false_and, false_iff]
          rintro ⟨names, hn, -, hb⟩
          exact not_belongs_of_link hown hroot (by simp) hn hb
        | link k' g' =>
          cases hv
          simp only [List.not_mem_nil, false_and, false_iff]
          rintro ⟨names, hn, -, hb⟩
          exact not_belongs_of_link hown hroot (by simp) hn hb

/-- Files that belong to the project are known by their components. -/
theorem belongs_unique {ms : List RawText} {c c' : Octets} (hn : ∀ n ∈ names, IsName n)
    (hm : ∀ m ∈ ms, IsName m) (hc : h.Belongs s root names c) (hc' : h.Belongs s root ms c')
    (he : (root.below names).components = (root.below ms).components) : names = ms ∧ c = c' := by
  obtain rfl := Path.names_eq_of_components_below hn hm he
  obtain ⟨k, m, hk⟩ := hc.file
  obtain ⟨k', m', hk'⟩ := hc'.file
  rw [hk] at hk'
  cases hk'
  exact ⟨rfl, rfl⟩

/-- The content of a collected file, as text. -/
def contentText (content : Octets) : String :=
  String.ofList (Text.decodeLossy content)

/-- The files that are put into the set. -/
theorem mem_map_filter_visits (wf : h.tree.Proper) {vs : List Visit} (hv : h.visits s root = .ok vs)
    (f : Path × String) :
    (f ∈ (vs.filter fun v => s.allows v.path).map fun v => (v.path, contentText v.content)) ↔
      ∃ names content, (∀ n ∈ names, IsName n) ∧ h.Belongs s root names content ∧
        f = (root.below names, contentText content) := by
  rw [List.mem_map]
  constructor
  · rintro ⟨v, hmem, rfl⟩
    obtain ⟨names, hn, hp, hb⟩ := (mem_visits_iff wf hv).1 (List.mem_filter.1 hmem)
    exact ⟨names, v.content, hn, hb, by rw [hp]⟩
  · rintro ⟨names, content, hn, hb, rfl⟩
    have hmem := (mem_visits_iff wf hv (v := ⟨root.below names, content⟩)).2 ⟨names, hn, rfl, hb⟩
    exact ⟨_, List.mem_filter.2 hmem, rfl⟩

theorem distinct_map_filter_visits (wf : h.tree.Proper) {vs : List Visit}
    (hv : h.visits s root = .ok vs) :
    FileSet.Distinct ((vs.filter fun v => s.allows v.path).map fun v =>
      (v.path, contentText v.content)) := by
  intro f hf g hg he
  obtain ⟨ns, c, hn, hb, rfl⟩ := (mem_map_filter_visits wf hv f).1 hf
  obtain ⟨ms, c', hm, hb', rfl⟩ := (mem_map_filter_visits wf hv g).1 hg
  obtain ⟨rfl, rfl⟩ := belongs_unique hn hm hb hb' he
  rfl

theorem exists_visits_of_collect {files : FileSet} (hf : h.collect s root = .ok files) :
    ∃ vs, h.visits s root = .ok vs ∧
      files = FileSet.ofList ((vs.filter fun v => s.allows v.path).map fun v =>
        (v.path, contentText v.content)) := by
  rw [collect] at hf
  cases hv : h.visits s root with
  | error e => rw [hv] at hf; cases hf
  | ok vs => rw [hv] at hf; cases hf; exact ⟨vs, rfl, rfl⟩

/-- What is collected is known file by file. -/
theorem mem_entries_collect (wf : h.tree.Proper) {files : FileSet}
    (hf : h.collect s root = .ok files) (f : Path × String) :
    f ∈ files.entries ↔
      ∃ names content, (∀ n ∈ names, IsName n) ∧ h.Belongs s root names content ∧
        f = (root.below names, contentText content) := by
  obtain ⟨vs, hv, rfl⟩ := exists_visits_of_collect hf
  rw [FileSet.mem_entries_ofList (distinct_map_filter_visits wf hv), mem_map_filter_visits wf hv]

theorem get?_collect (wf : h.tree.Proper) {files : FileSet} (hf : h.collect s root = .ok files)
    (hn : ∀ n ∈ names, IsName n) (text : String) :
    files.get? (root.below names) = some text ↔
      ∃ content, h.Belongs s root names content ∧ text = contentText content := by
  obtain ⟨vs, hv, rfl⟩ := exists_visits_of_collect hf
  rw [FileSet.get?_ofList (distinct_map_filter_visits wf hv)]
  constructor
  · rintro ⟨f, hmem, he, rfl⟩
    obtain ⟨ms, c, hm, hb, rfl⟩ := (mem_map_filter_visits wf hv f).1 hmem
    obtain rfl := Path.names_eq_of_components_below hm hn he
    exact ⟨c, hb, rfl⟩
  · rintro ⟨c, hb, rfl⟩
    exact ⟨_, (mem_map_filter_visits wf hv _).2 ⟨names, c, hn, hb, rfl⟩, rfl, rfl⟩

theorem collect_of_pathExists (hroot : h.pathExists root = true) :
    ∃ files, h.collect s root = .ok files := by
  obtain ⟨e, he⟩ := pathExists_iff.1 hroot
  have hv : ∃ vs, h.visits s root = .ok vs := by
    rw [visits, he]
    rcases ownEntry_of_entry he with hown | ⟨k, g, hown⟩
    · rw [hown]
      cases e <;> exact ⟨_, rfl⟩
    · rw [hown]
      cases e <;> exact ⟨_, rfl⟩
  obtain ⟨vs, hv⟩ := hv
  exact ⟨_, by rw [collect, hv]; rfl⟩

/-- A root that leads nowhere cannot be collected, for the reason that it leads nowhere. -/
theorem collect_of_entry_error {fault : Fault} (hroot : h.entry root = .error fault) :
    h.collect s root = .error (.walk root [fault.text]) := by
  rw [collect, visits]
  cases hown : h.ownEntry root with
  | error f =>
    rw [entry_of_ownEntry_error hown] at hroot
    cases hroot
    rfl
  | ok e =>
    cases e with
    | file k c m =>
      rw [entry_of_ownEntry hown (by simp)] at hroot
      cases hroot
    | dir u =>
      rw [entry_of_ownEntry hown (by simp)] at hroot
      cases hroot
    | link k g =>
      rw [hroot]
      rfl

theorem entry_of_not_pathExists (hroot : h.pathExists root = false) :
    ∃ fault, h.entry root = .error fault := by
  cases he : h.entry root with
  | error fault => exact ⟨fault, rfl⟩
  | ok e =>
    rw [pathExists_iff.2 ⟨e, he⟩] at hroot
    cases hroot

theorem collect_of_not_pathExists (hroot : h.pathExists root = false) :
    ∃ fault : Fault, h.collect s root = .error (.walk root [fault.text]) := by
  obtain ⟨fault, he⟩ := entry_of_not_pathExists hroot
  exact ⟨fault, collect_of_entry_error he⟩

/-- **Exact collection.** A root that leads to something is collected, and the files at hand are
then those that belong to the project, each with its content as text. Without a root there are no
files at all. -/
theorem collect_exact (h : Host) (s : Selection) (root : Path) (wf : h.tree.Proper) :
    (h.pathExists root = true →
      ∃ files, h.collect s root = .ok files ∧
        (∀ names, (∀ n ∈ names, IsName n) → ∀ text, files.get? (root.below names) = some text ↔
          ∃ content, h.Belongs s root names content ∧ text = contentText content) ∧
        ∀ p ∈ files.paths, ∃ names, (∀ n ∈ names, IsName n) ∧ p = root.below names) ∧
    (h.pathExists root = false →
      ∃ fault : Fault, h.collect s root = .error (.walk root [fault.text])) := by
  refine ⟨fun hroot => ?_, collect_of_not_pathExists⟩
  obtain ⟨files, hf⟩ := collect_of_pathExists (s := s) hroot
  refine ⟨files, hf, fun names hn => get?_collect wf hf hn, fun p hp => ?_⟩
  obtain ⟨f, hmem, rfl⟩ := List.mem_map.1 hp
  obtain ⟨names, content, hn, -, rfl⟩ := (mem_entries_collect wf hf f).1 hmem
  exact ⟨names, hn, rfl⟩

/-- A project behind a link; it holds a link and a hidden file besides its sources. -/
def linkedProject : Host :=
  ⟨.dir "work" (.dir "src" (.file "a.php" 0 [0x78, 0xFF] Entry.plainMode
    (.link "b.php" 1 "a.php" .empty))
    (.file ".c.php" 2 [] Entry.plainMode .empty)) (.link "project" 3 "work" .empty), [], []⟩

theorem collect_linkedProject :
    linkedProject.tree.Proper ∧ linkedProject.pathExists ⟨"/project"⟩ = true ∧
      ∃ files, linkedProject.collect ⟨["php"], ["vendor"]⟩ ⟨"/project"⟩ = .ok files ∧
        files.get? ⟨"/project/src/a.php"⟩ = some "x\uFFFD" := by
  have wf : linkedProject.tree.Proper := by decide
  have hroot : linkedProject.pathExists ⟨"/project"⟩ = true := by decide +kernel
  obtain ⟨files, hf, hget, -⟩ :=
    (collect_exact linkedProject ⟨["php"], ["vendor"]⟩ ⟨"/project"⟩ wf).1 hroot
  have hb : linkedProject.Belongs ⟨["php"], ["vendor"]⟩ ⟨"/project"⟩ ["src", "a.php"]
      [0x78, 0xFF] := by
    refine ⟨fun k hk hk' => ?_, ⟨0, Entry.plainMode, by rfl⟩, by decide +kernel, ?_⟩
    · obtain rfl : k = 1 := by simp at hk'; omega
      exact ⟨_, by rfl⟩
    · exact Or.inr ⟨"a.php", by decide +kernel, "php", by decide, by decide,
        Or.inr ⟨"a", by decide +kernel⟩⟩
  exact ⟨wf, hroot, files, hf, (hget ["src", "a.php"] (by decide) _).2 ⟨_, hb, by decide +kernel⟩⟩

end Host

end CommitGate

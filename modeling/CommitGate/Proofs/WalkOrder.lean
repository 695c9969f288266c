import CommitGate.Proofs.Collect
import CommitGate.Proofs.FileMap
import CommitGate.Proofs.PathOrder
import Mathlib.Data.List.Lex
import Mathlib.Data.List.Sort

/-!
# The order of the walk

The walk goes through a directory in the order of its names, and through a directory in it before
the entries behind that one. The files are kept in the order of their paths, which are compared
component by component. These are two orders of their own: the octets of the paths would give a
third, in which `a.php` stands before `a/z.php`, as a point comes before a slash. But the walk and
the components agree, so every file is put behind those that are there, and none takes the place of
another.

Results:

* `visits_walk`: the walk through a directory is the depth-first walk through its entries in order.
* `Walk.unique`: there is only one such walk.
* `Walk.pairwise`: it meets the files in the order of their paths.
* `entries_ofList_of_pairwise`: files that come in the order of their paths stay as they come.
* `collect_in_walk_order`: what is collected is what the walk meets, as it meets it.
-/

namespace CommitGate

open Text (Octets)

namespace Tree

/-- The entries of a directory, in the order of the tree. -/
def entries : Tree → List (RawText × Entry)
  | .empty => []
  | .file n k c m r => (n, .file k c m) :: r.entries
  | .link n k g r => (n, .link k g) :: r.entries
  | .dir n d r => (n, .dir d) :: r.entries

/-- The list has the entries of a directory, in the order of the octets of their names. -/
structure Listing (t : Tree) (es : List (RawText × Entry)) : Prop where
  ordered : es.Pairwise fun x y => x.1.octets < y.1.octets
  mem_iff : ∀ n e, (n, e) ∈ es ↔ t.find? n = some e

/-- The depth-first walk from a directory at a path through the entries of a list: what it meets
below each entry comes before what it meets below the next ones. -/
inductive Walk (s : Selection) : Path → List (RawText × Entry) → List Visit → Prop where
  | done {p : Path} : Walk s p [] []
  /-- A name that is not kept, with all below it. -/
  | passed {p : Path} {n : RawText} {e : Entry} {es : List (RawText × Entry)} {met : List Visit}
      (h : s.keeps n = false) (rest : Walk s p es met) : Walk s p ((n, e) :: es) met
  | link {p : Path} {n : RawText} {node : Nat} {target : RawText} {es : List (RawText × Entry)}
      {met : List Visit} (rest : Walk s p es met) : Walk s p ((n, .link node target) :: es) met
  | file {p : Path} {n : RawText} {node : Nat} {content : Octets} {mode : Nat}
      {es : List (RawText × Entry)} {met : List Visit} (h : s.keeps n = true)
      (rest : Walk s p es met) :
      Walk s p ((n, .file node content mode) :: es) (⟨p.child n, content⟩ :: met)
  | dir {p : Path} {n : RawText} {u : Tree} {inner es : List (RawText × Entry)}
      {found met : List Visit} (h : s.keeps n = true) (listing : Listing u inner)
      (inside : Walk s (p.child n) inner found) (rest : Walk s p es met) :
      Walk s p ((n, .dir u) :: es) (found ++ met)

variable {t : Tree} {s : Selection} {p : Path} {n : RawText} {e : Entry}
  {es : List (RawText × Entry)} {met : List Visit}

/-! ## The entries in order -/

theorem map_entries (t : Tree) : t.entries.map (·.1) = t.names := by
  induction t with
  | empty => rfl
  | file n k c m r ih => rw [entries, List.map_cons, ih, names]
  | link n k g r ih => rw [entries, List.map_cons, ih, names]
  | dir n d r _ ih => rw [entries, List.map_cons, ih, names]

theorem Proper.nodup_names (ht : t.Proper) : t.names.Nodup := by
  induction t with
  | empty => exact List.nodup_nil
  | file n k c m r ih => exact List.nodup_cons.2 ⟨ht.2.1, ih ht.2.2⟩
  | link n k g r ih => exact List.nodup_cons.2 ⟨ht.2.1, ih ht.2.2⟩
  | dir n d r _ ih => exact List.nodup_cons.2 ⟨ht.2.1, ih ht.2.2.2⟩

theorem entries_cons (n : RawText) (e : Entry) (r : Tree) :
    (cons n e r).entries = (n, e) :: r.entries := by
  cases e <;> rfl

theorem mem_entries_iff (ht : t.names.Nodup) : (n, e) ∈ t.entries ↔ t.find? n = some e := by
  -- the first entry and the others cannot both have the name
  have hstep : ∀ (m : RawText) (x : Entry) (r : Tree), m ∉ r.names →
      ((n, e) ∈ r.entries ↔ r.find? n = some e) →
      ((n, e) ∈ (cons m x r).entries ↔ (cons m x r).find? n = some e) := by
    intro m x r hm ih
    rw [entries_cons, List.mem_cons, ih, find?_cons]
    by_cases hmn : m = n
    · subst hmn
      have hr : ¬ r.find? m = some e := fun h => hm (mem_names_of_find? h)
      rw [if_pos rfl, or_iff_left hr, Prod.mk.injEq, Option.some.injEq]
      exact ⟨fun h => h.2.symm, fun h => ⟨rfl, h.symm⟩⟩
    · rw [if_neg hmn, or_iff_right fun h => hmn (Prod.mk.inj h).1.symm]
  induction t with
  | empty => simp [entries, Tree.find?]
  | file m k c mode r ih =>
    obtain ⟨hm, hr⟩ := List.nodup_cons.1 ht
    exact hstep m (.file k c mode) r hm (ih hr)
  | link m k g r ih =>
    obtain ⟨hm, hr⟩ := List.nodup_cons.1 ht
    exact hstep m (.link k g) r hm (ih hr)
  | dir m d r _ ih =>
    obtain ⟨hm, hr⟩ := List.nodup_cons.1 ht
    exact hstep m (.dir d) r hm (ih hr)

section Sorting

variable {α β : Type} {xs : List (RawText × α)}

/-- The name does not come behind the other. -/
def NotBehind (x y : RawText × α) : Prop :=
  ¬ y.1 < x.1

instance : DecidableRel (NotBehind (α := α)) :=
  fun _ _ => instDecidableNot

instance : Std.Total (NotBehind (α := α)) where
  total x y := by
    exact List.le_total x.1.octets y.1.octets

instance : IsTrans (RawText × α) NotBehind where
  trans x y z hxy hyz := by
    exact List.le_trans hxy hyz

/-- Things are put in order by insertion. -/
theorem sortNamed_eq (xs : List (RawText × α)) : sortNamed xs = xs.insertionSort NotBehind := by
  have hinsert : ∀ (x : RawText × α) (ys : List (RawText × α)),
      insertNamed x ys = ys.orderedInsert NotBehind x := by
    intro x ys
    induction ys with
    | nil => rfl
    | cons y ys ih =>
      rw [insertNamed, List.orderedInsert_cons, ih]
      by_cases h : y.1 < x.1
      · have hbehind : ¬ NotBehind x y := not_not_intro h
        rw [if_pos h, if_neg hbehind]
      · have hbehind : NotBehind x y := h
        rw [if_neg h, if_pos hbehind]
  induction xs with
  | nil => rfl
  | cons x xs ih =>
    rw [sortNamed, List.foldr_cons, ← sortNamed, ih, hinsert, List.insertionSort_cons]

theorem pairwise_sortNamed (h : (xs.map (·.1)).Nodup) :
    (sortNamed xs).Pairwise fun x y => x.1 < y.1 := by
  have hperm : (sortNamed xs).Perm xs := by
    rw [sortNamed_eq]
    exact List.perm_insertionSort _ xs
  have hne : (sortNamed xs).Pairwise fun x y => x.1 ≠ y.1 :=
    List.pairwise_map.1 ((hperm.map _).nodup_iff.2 h)
  have hle : (sortNamed xs).Pairwise NotBehind := by
    rw [sortNamed_eq]
    exact List.pairwise_insertionSort _ xs
  refine (hle.and hne).imp fun {x y} hxy => ?_
  by_contra hlt
  exact hxy.2 (RawText.ext (List.le_antisymm hxy.1 hlt))

/-- Things in order are known from the names and what they stand for. -/
theorem eq_of_pairwise_lt {ys : List (RawText × α)} (hxs : xs.Pairwise fun x y => x.1 < y.1)
    (hys : ys.Pairwise fun x y => x.1 < y.1) (h : ∀ x, x ∈ xs ↔ x ∈ ys) : xs = ys := by
  have : Std.Irrefl fun x y : RawText × α => x.1 < y.1 := ⟨fun x => List.lt_irrefl x.1.octets⟩
  have : Std.Antisymm fun x y : RawText × α => x.1 < y.1 :=
    ⟨fun x y hxy hyx => absurd (List.lt_trans hxy hyx) (List.lt_irrefl x.1.octets)⟩
  exact hxs.eq_of_mem_iff hys h

/-- Picking some of the things, each under its name, and putting them in order commute. -/
theorem sortNamed_filterMap {f : RawText × α → Option (RawText × β)}
    (hf : ∀ x y, f x = some y → y.1 = x.1) (h : (xs.map (·.1)).Nodup) :
    sortNamed (xs.filterMap f) = (sortNamed xs).filterMap f := by
  have hnames : ((xs.filterMap f).map (·.1)).Nodup := by
    refine List.pairwise_map.2 ((List.pairwise_map.1 h).filterMap f fun x x' hne y hy y' hy' => ?_)
    rw [hf x y hy, hf x' y' hy']
    exact hne
  have hsorted : ((sortNamed xs).filterMap f).Pairwise fun x y => x.1 < y.1 := by
    refine (pairwise_sortNamed h).filterMap f fun x x' hlt y hy y' hy' => ?_
    rw [hf x y hy, hf x' y' hy']
    exact hlt
  refine eq_of_pairwise_lt (pairwise_sortNamed hnames) hsorted fun x => ?_
  simp only [mem_sortNamed, List.mem_filterMap]

end Sorting

/-- **A directory lists its entries in one way.** -/
theorem Proper.listing (ht : t.Proper) : Listing t (sortNamed t.entries) where
  ordered := by
    refine pairwise_sortNamed ?_
    rw [map_entries]
    exact ht.nodup_names
  mem_iff n e := by rw [mem_sortNamed, mem_entries_iff ht.nodup_names]

theorem Listing.unique {es' : List (RawText × Entry)} (h : Listing t es) (h' : Listing t es') :
    es = es' := by
  refine eq_of_pairwise_lt h.ordered h'.ordered fun x => ?_
  rw [h.mem_iff, h'.mem_iff]

/-! ## The walk -/

/-- An entry that is kept and is no link, with what the walk meets below it. -/
def branch? (s : Selection) (p : Path) (x : RawText × Entry) : Option (RawText × List Visit) :=
  if s.keeps x.1 then
    match x.2 with
    | .file _ content _ => some (x.1, [⟨p.child x.1, content⟩])
    | .link _ _ => none
    | .dir u => some (x.1, u.visits s (p.child x.1))
  else none

theorem visitsByEntry_eq : t.visitsByEntry s p = t.entries.filterMap (branch? s p) := by
  induction t with
  | empty => rfl
  | file n k c m r ih =>
    rw [visitsByEntry, entries, List.filterMap_cons, ih]
    cases h : s.keeps n <;> simp [branch?, h]
  | link n k g r ih =>
    rw [visitsByEntry, entries, List.filterMap_cons, ih]
    cases h : s.keeps n <;> simp [branch?, h]
  | dir n d r _ ih =>
    rw [visitsByEntry, entries, List.filterMap_cons, ih]
    cases h : s.keeps n <;> simp [branch?, visits, h]

theorem branch?_name {x : RawText × Entry} {y : RawText × List Visit} (h : branch? s p x = some y) :
    y.1 = x.1 := by
  unfold branch? at h
  split at h
  · split at h
    · cases h
      rfl
    · cases h
    · cases h
      rfl
  · cases h

/-- The walk through a directory goes through its entries in order. -/
theorem visits_eq (ht : t.Proper) :
    t.visits s p = ((sortNamed t.entries).filterMap (branch? s p)).flatMap (·.2) := by
  have hnodup : (t.entries.map (·.1)).Nodup := by
    rw [map_entries]
    exact ht.nodup_names
  rw [visits, visitsByEntry_eq, sortNamed_filterMap (fun x y => branch?_name) hnodup]

/-- The entries have names that an entry may have, and the directories among them are proper. -/
def Fit (es : List (RawText × Entry)) : Prop :=
  ∀ n e, (n, e) ∈ es → IsName n ∧ ∀ u, e = .dir u → u.Proper

theorem Listing.fit (h : Listing t es) (ht : t.Proper) : Fit es :=
  fun n e hmem => ht.find? ((h.mem_iff n e).1 hmem)

theorem Fit.tail {x : RawText × Entry} (h : Fit (x :: es)) : Fit es :=
  fun n e hmem => h n e (List.mem_cons_of_mem x hmem)

/-- One entry after the other, when the directories among them are walked through. -/
theorem Fit.walk (hfit : Fit es) (hdirs : ∀ n u, (n, .dir u) ∈ es → ∀ q : Path,
      Walk s q (sortNamed u.entries) (u.visits s q)) :
    Walk s p es ((es.filterMap (branch? s p)).flatMap (·.2)) := by
  induction es with
  | nil => exact .done
  | cons x es ih =>
    obtain ⟨n, e⟩ := x
    have hrest := ih hfit.tail fun m u hmem => hdirs m u (List.mem_cons_of_mem _ hmem)
    rw [List.filterMap_cons]
    cases hkeep : s.keeps n with
    | false =>
      have hbranch : branch? s p (n, e) = none := by simp [branch?, hkeep]
      rw [hbranch]
      exact .passed hkeep hrest
    | true =>
      cases e with
      | file node content mode =>
        have hbranch :
            branch? s p (n, .file node content mode) = some (n, [⟨p.child n, content⟩]) := by
          simp [branch?, hkeep]
        rw [hbranch]
        exact .file hkeep hrest
      | link node target =>
        have hbranch : branch? s p (n, .link node target) = none := by simp [branch?]
        rw [hbranch]
        exact .link hrest
      | dir u =>
        have hbranch : branch? s p (n, .dir u) = some (n, u.visits s (p.child n)) := by
          simp [branch?, hkeep]
        have hu : u.Proper := (hfit n _ List.mem_cons_self).2 u rfl
        rw [hbranch]
        exact .dir hkeep hu.listing (hdirs n u List.mem_cons_self _) hrest

theorem walk_of_mem_entries (ht : t.Proper) {u : Tree} (h : (n, .dir u) ∈ t.entries) :
    Walk s p (sortNamed u.entries) (u.visits s p) := by
  induction t generalizing n u p with
  | empty => cases h
  | file m k c mode r ih => exact ih ht.2.2 ((List.mem_cons.1 h).resolve_left (by simp))
  | link m k g r ih => exact ih ht.2.2 ((List.mem_cons.1 h).resolve_left (by simp))
  | dir m d r ihd ih =>
    obtain ⟨-, -, hd, hr⟩ := ht
    rcases List.mem_cons.1 h with heq | h
    · cases heq
      rw [visits_eq hd]
      exact (hd.listing.fit hd).walk fun _ _ hmem _ => ihd hd (mem_sortNamed.1 hmem)
    · exact ih hr h

/-- **The walk through a directory is the depth-first walk through its entries in order.** -/
theorem visits_walk (ht : t.Proper) : Walk s p (sortNamed t.entries) (t.visits s p) := by
  rw [visits_eq ht]
  exact (ht.listing.fit ht).walk fun _ _ hmem _ => walk_of_mem_entries ht (mem_sortNamed.1 hmem)

/-- **There is only one such walk.** -/
theorem Walk.unique {met' : List Visit} (h : Walk s p es met) (h' : Walk s p es met') :
    met = met' := by
  induction h generalizing met' with
  | done => cases h'; rfl
  | passed hkeep _ ih =>
    cases h' with
    | passed _ rest => exact ih rest
    | link rest => exact ih rest
    | file hkeep' _ => exact absurd (hkeep.symm.trans hkeep') Bool.false_ne_true
    | dir hkeep' _ _ _ => exact absurd (hkeep.symm.trans hkeep') Bool.false_ne_true
  | link _ ih =>
    cases h' with
    | passed _ rest => exact ih rest
    | link rest => exact ih rest
  | file hkeep _ ih =>
    cases h' with
    | passed hkeep' _ => exact absurd (hkeep'.symm.trans hkeep) Bool.false_ne_true
    | file _ rest => rw [ih rest]
  | dir hkeep listing _ _ ihin ih =>
    cases h' with
    | passed hkeep' _ => exact absurd (hkeep'.symm.trans hkeep) Bool.false_ne_true
    | dir _ listing' inside rest =>
      obtain rfl := listing.unique listing'
      rw [ihin inside, ih rest]

/-! ## The paths that the walk meets -/

/-- What the walk meets stands below one of the entries. -/
theorem Walk.exists_below (h : Walk s p es met) (hfit : Fit es) {v : Visit} (hv : v ∈ met) :
    ∃ n e names, (n, e) ∈ es ∧ (∀ m ∈ n :: names, IsName m) ∧ v.path = p.below (n :: names) := by
  induction h with
  | done => cases hv
  | passed _ _ ih =>
    obtain ⟨n, e, names, hmem, hrest⟩ := ih hfit.tail hv
    exact ⟨n, e, names, List.mem_cons_of_mem _ hmem, hrest⟩
  | link _ ih =>
    obtain ⟨n, e, names, hmem, hrest⟩ := ih hfit.tail hv
    exact ⟨n, e, names, List.mem_cons_of_mem _ hmem, hrest⟩
  | @file _ n _ _ _ _ _ _ _ ih =>
    rcases List.mem_cons.1 hv with rfl | hv
    · have hn := (hfit n _ List.mem_cons_self).1
      exact ⟨n, _, [], List.mem_cons_self, by simpa using hn, rfl⟩
    · obtain ⟨n, e, names, hmem, hrest⟩ := ih hfit.tail hv
      exact ⟨n, e, names, List.mem_cons_of_mem _ hmem, hrest⟩
  | @dir _ n u _ _ _ _ _ listing _ _ ihin ih =>
    rcases List.mem_append.1 hv with hv | hv
    · obtain ⟨hn, hu⟩ := hfit n _ List.mem_cons_self
      obtain ⟨m, e, names, -, hnames, hpath⟩ := ihin (listing.fit (hu u rfl)) hv
      exact ⟨n, _, m :: names, List.mem_cons_self, List.forall_mem_cons.2 ⟨hn, hnames⟩, hpath⟩
    · obtain ⟨n, e, names, hmem, hrest⟩ := ih hfit.tail hv
      exact ⟨n, e, names, List.mem_cons_of_mem _ hmem, hrest⟩

end Tree

/-- Where two ways part, the names decide, whatever comes behind them. -/
theorem Path.before_below {p : Path} {m n : RawText} {ms ns : List RawText}
    (hms : ∀ x ∈ m :: ms, IsName x) (hns : ∀ x ∈ n :: ns, IsName x)
    (h : m.octets < n.octets) :
    (p.below (m :: ms)).Before (p.below (n :: ns)) := by
  rw [Before, components_below p hms, components_below p hns]
  exact List.Lex.append_left _ (.rel (.name h)) _

namespace Tree

variable {s : Selection} {p : Path} {es : List (RawText × Entry)} {met : List Visit}

/-- **The walk meets the files in the order of their paths.** -/
theorem Walk.pairwise (h : Walk s p es met) (hfit : Fit es)
    (hordered : es.Pairwise fun x y => x.1.octets < y.1.octets) :
    met.Pairwise fun v w => v.path.Before w.path := by
  induction h with
  | done => exact .nil
  | passed _ _ ih => exact ih hfit.tail (List.pairwise_cons.1 hordered).2
  | link _ ih => exact ih hfit.tail (List.pairwise_cons.1 hordered).2
  | @file p n _ _ _ _ _ _ rest ih =>
    obtain ⟨hhead, hordered⟩ := List.pairwise_cons.1 hordered
    refine List.pairwise_cons.2 ⟨fun w hw => ?_, ih hfit.tail hordered⟩
    have hn := (hfit n _ List.mem_cons_self).1
    obtain ⟨m, e, names, hmem, hnames, hpath⟩ := rest.exists_below hfit.tail hw
    have hsingle : ∀ x ∈ [n], IsName x := by simpa using hn
    rw [hpath]
    exact show (p.below [n]).Before _ from Path.before_below hsingle hnames (hhead _ hmem)
  | @dir p n u _ _ _ _ _ listing inside rest ihin ih =>
    obtain ⟨hhead, hordered⟩ := List.pairwise_cons.1 hordered
    obtain ⟨hn, hu⟩ := hfit n _ List.mem_cons_self
    have hinner := listing.fit (hu u rfl)
    refine List.pairwise_append.2 ⟨ihin hinner listing.ordered, ih hfit.tail hordered,
      fun v hv w hw => ?_⟩
    -- one path goes down into the directory, the other to an entry behind it
    obtain ⟨k, _, below, -, hbelow, hv⟩ := inside.exists_below hinner hv
    obtain ⟨m, e, names, hmem, hnames, hw⟩ := rest.exists_below hfit.tail hw
    rw [hv, hw, ← Path.below_cons]
    exact Path.before_below (List.forall_mem_cons.2 ⟨hn, hbelow⟩) hnames (hhead _ hmem)

end Tree

/-! ## Files that come in order -/

namespace FileSet

theorem insertEntry_of_forall_lt {p : Path} {content : String} {es : List (Path × String)}
    (h : ∀ f ∈ es, f.1.order p = .lt) : insertEntry p content es = es ++ [(p, content)] := by
  induction es with
  | nil => rfl
  | cons f es ih =>
    obtain ⟨hf, hes⟩ := List.forall_mem_cons.1 h
    have hgt : p.order f.1 = .gt := Path.order_gt_of_order_lt hf
    rw [insertEntry, hgt, List.cons_append, ← ih hes]

/-- **Files that come in the order of their paths stay as they come.** -/
theorem entries_ofList_of_pairwise {files : List (Path × String)}
    (h : files.Pairwise fun f g => f.1.order g.1 = .lt) : (ofList files).entries = files := by
  induction files using List.reverseRecOn with
  | nil => rfl
  | append_singleton files f ih =>
    obtain ⟨hfiles, -, hlast⟩ := List.pairwise_append.1 h
    rw [ofList_concat, insert, ih hfiles]
    exact insertEntry_of_forall_lt fun g hg => hlast g hg f List.mem_cons_self

end FileSet

/-! ## Collecting in order -/

/-- The file of a visit: its path, and its content as text. -/
def Visit.file (v : Visit) : Path × String :=
  (v.path, Host.contentText v.content)

namespace Host

/-- The depth-first walk from a root: through the directory that it leads to, or to the root alone
when it is a file itself. -/
inductive Walked (h : Host) (s : Selection) (root : Path) : List Visit → Prop where
  | file {node : Nat} {content : Octets} {mode : Nat}
      (own : h.ownEntry root = .ok (.file node content mode)) :
      Walked h s root [⟨root, content⟩]
  | dir {t : Tree} {es : List (RawText × Entry)} {met : List Visit}
      (leads : h.entry root = .ok (.dir t)) (listing : t.Listing es)
      (walk : Tree.Walk s root es met) : Walked h s root met
  /-- A link to something that is no directory. -/
  | link {node : Nat} {target : RawText} {e : Entry}
      (own : h.ownEntry root = .ok (.link node target))
      (leads : h.entry root = .ok e) (other : ∀ t, e ≠ .dir t) : Walked h s root []

variable {h : Host} {s : Selection} {root : Path} {met : List Visit}

theorem walked_of_visits (wf : h.tree.Proper) (hmet : h.visits s root = .ok met) :
    h.Walked s root met := by
  have hdir : ∀ t, h.entry root = .ok (.dir t) → h.Walked s root (t.visits s root) := by
    intro t leads
    obtain ⟨place, -, hget⟩ := entry_eq_ok_iff.1 leads
    have ht : t.Proper := (wf.get? hget).2 t rfl
    exact .dir leads ht.listing (Tree.visits_walk ht)
  rw [visits] at hmet
  cases hown : h.ownEntry root with
  | error f => rw [hown] at hmet; cases hmet
  | ok e =>
    rw [hown] at hmet
    cases e with
    | file k c m =>
      cases hmet
      exact .file hown
    | dir t =>
      cases hmet
      exact hdir t (entry_of_ownEntry hown (by simp))
    | link k g =>
      cases hroot : h.entry root with
      | error f => rw [hroot] at hmet; cases hmet
      | ok e =>
        rw [hroot] at hmet
        cases e with
        | dir t =>
          cases hmet
          exact hdir t hroot
        | file k c m =>
          cases hmet
          exact .link hown hroot (by simp)
        | link k' g' =>
          cases hmet
          exact .link hown hroot (by simp)

theorem Walked.unique {met' : List Visit} (hmet : h.Walked s root met)
    (hmet' : h.Walked s root met') : met = met' := by
  -- a file at the root is what the root leads to
  have hfile : ∀ {node content mode} {e : Entry},
      h.ownEntry root = .ok (.file node content mode) → h.entry root = .ok e →
      e = .file node content mode := fun own leads =>
    Except.ok.inj (leads.symm.trans (entry_of_ownEntry own (by simp)))
  cases hmet with
  | file own =>
    cases hmet' with
    | file own' =>
      cases own.symm.trans own'
      rfl
    | dir leads _ _ => cases hfile own leads
    | link own' _ _ => cases own.symm.trans own'
  | dir leads listing walk =>
    cases hmet' with
    | file own => cases hfile own leads
    | dir leads' listing' walk' =>
      cases leads.symm.trans leads'
      obtain rfl := listing.unique listing'
      exact walk.unique walk'
    | link _ leads' other => exact absurd (Except.ok.inj (leads'.symm.trans leads)) (other _)
  | link own leads other =>
    cases hmet' with
    | file own' => cases own.symm.trans own'
    | dir leads' _ _ => exact absurd (Except.ok.inj (leads.symm.trans leads')) (other _)
    | link => rfl

theorem Walked.pairwise (wf : h.tree.Proper) (hmet : h.Walked s root met) :
    met.Pairwise fun v w => v.path.Before w.path := by
  cases hmet with
  | file own => exact List.pairwise_singleton _ _
  | dir leads listing walk =>
    obtain ⟨place, -, hget⟩ := entry_eq_ok_iff.1 leads
    exact walk.pairwise (listing.fit ((wf.get? hget).2 _ rfl)) listing.ordered
  | link => exact .nil

/-- **What is collected is what the walk meets, as it meets it.** There is one depth-first walk
from the root in which the names of each directory come in the order of their octets, and it is the
walk that is made. No two of the files that it meets have the same components. So none of those with
an allowed extension takes the place of another when they are put in, and the set has them all, in
the order of the walk. -/
theorem collect_in_walk_order (h : Host) (s : Selection) (root : Path) (wf : h.tree.Proper)
    {files : FileSet} (hf : h.collect s root = .ok files) :
    ∃ met, h.visits s root = .ok met ∧ (∀ met', h.Walked s root met' ↔ met' = met) ∧
      (met.Pairwise fun v w => v.path.components ≠ w.path.components) ∧
      let found := met.filter fun v => s.allows v.path
      (∀ before v after, found = before ++ v :: after →
        (FileSet.ofList (before.map Visit.file)).get? v.path = none) ∧
      files.entries = found.map Visit.file ∧ files.size = found.length ∧
      files.paths = found.map (·.path) := by
  obtain ⟨met, hmet, rfl⟩ := exists_visits_of_collect hf
  have hwalked : h.Walked s root met := walked_of_visits wf hmet
  have hbefore : met.Pairwise fun v w => v.path.order w.path = .lt :=
    (hwalked.pairwise wf).imp Path.order_eq_lt_iff.2
  have hne : met.Pairwise fun v w => v.path.components ≠ w.path.components := by
    refine hbefore.imp fun {v w} hlt heq => ?_
    rw [(Path.order_eq_eq_iff _ _).2 heq] at hlt
    cases hlt
  refine ⟨met, hmet, fun met' => ⟨fun h' => h'.unique hwalked, fun h' => h' ▸ hwalked⟩, hne, ?_⟩
  intro found
  have hentries : (FileSet.ofList (found.map Visit.file)).entries = found.map Visit.file :=
    FileSet.entries_ofList_of_pairwise (List.pairwise_map.2 (hbefore.filter _))
  refine ⟨fun before v after hsplit => ?_, hentries, ?_, ?_⟩
  · have hfound : found.Pairwise fun v w => v.path.components ≠ w.path.components := hne.filter _
    rw [hsplit] at hfound
    rw [FileSet.get?_ofList_eq_none_iff, List.forall_mem_map]
    exact fun w hw => (List.pairwise_append.1 hfound).2.2 w hw v List.mem_cons_self
  · rw [FileSet.size]
    exact (congrArg List.length hentries).trans (List.length_map _)
  · rw [FileSet.paths]
    exact (congrArg (List.map (·.1)) hentries).trans (List.map_map ..)

/-- A project with a directory whose name starts the name of a file behind it. -/
def prefixProject : Host :=
  ⟨.dir "p" (.file "a.php" 0 [0x31] Entry.plainMode
    (.dir "a" (.file "z.php" 1 [0x32] Entry.plainMode .empty) .empty)) .empty, [], []⟩

theorem collect_in_walk_order_prefixProject :
    prefixProject.tree.Proper ∧ ∃ files,
      prefixProject.collect ⟨["php"], []⟩ ⟨"/p"⟩ = .ok files ∧
      prefixProject.Walked ⟨["php"], []⟩ ⟨"/p"⟩
        [⟨⟨"/p/a/z.php"⟩, [0x32]⟩, ⟨⟨"/p/a.php"⟩, [0x31]⟩] ∧
      files.size = 2 ∧ files.paths = [⟨"/p/a/z.php"⟩, ⟨"/p/a.php"⟩] ∧
      "/p/a.php".toList < "/p/a/z.php".toList := by
  have wf : prefixProject.tree.Proper := by decide
  have hroot : prefixProject.pathExists ⟨"/p"⟩ = true := by decide +kernel
  obtain ⟨files, hf⟩ := collect_of_pathExists (s := ⟨["php"], []⟩) hroot
  obtain ⟨met, -, hwalked, -, -, -, hsize, hpaths⟩ :=
    collect_in_walk_order prefixProject ⟨["php"], []⟩ ⟨"/p"⟩ wf hf
  have hinner : (Tree.file "z.php" 1 [0x32] Entry.plainMode .empty).Proper := by decide
  have hproject : Tree.Proper (.file "a.php" 0 [0x31] Entry.plainMode
    (.dir "a" (.file "z.php" 1 [0x32] Entry.plainMode .empty) .empty)) := by decide
  have hwalk : prefixProject.Walked ⟨["php"], []⟩ ⟨"/p"⟩
      [⟨⟨"/p/a/z.php"⟩, [0x32]⟩, ⟨⟨"/p/a.php"⟩, [0x31]⟩] :=
    .dir (by rfl) hproject.listing (.dir rfl hinner.listing (.file rfl .done) (.file rfl .done))
  obtain rfl := (hwalked _).1 hwalk
  exact ⟨wf, files, hf, hwalk, by rw [hsize]; decide +kernel, by rw [hpaths]; decide +kernel,
    by decide⟩

end Host

end CommitGate

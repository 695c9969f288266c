import CommitGate.Proofs.Outline

/-!
# Ways through changed trees

Where a path leads depends on the directories and links on its way and on nothing else. A change to
other places leaves the way as it is. A change to a name that nothing can be reached through does so
too, as no way goes over it: a file is such a name, and so is a link that leads to a file.

Results:

* `Leads.passes`, `Passes.leads`: a way over some steps and then others is a passage over the first
  and a way over the others.
* `Passes.transfer`, `Passes.unique`: a passage is one in the changed tree too, and no other is.
* `Leads.not_beyond_file`: no way goes on behind steps that lead to a file.
* `namesAt_iff`: the names in the directory of a path are where the passage over its steps ends.
-/

namespace CommitGate

open Text (Octets)

namespace Host

/-- The steps lead over directories and links to a place from which steps may go on. The first
number says how many links may be followed, the second how many of them remain. -/
inductive Passes (t : Tree) : Nat → List RawText → List Step → Nat → List RawText → Prop
  | done {links place} : Passes t links place [] links place
  | stay {links place ss k q} : Passes t links place ss k q → Passes t links place (.stay :: ss) k q
  | slash {links place ss k q} : Passes t links place ss k q →
      Passes t links place (.slash :: ss) k q
  | up {links place ss k q} : Passes t links place.dropLast ss k q →
      Passes t links place (.up :: ss) k q
  | dir {links place n u ss k q} : t.get? (place ++ [n]) = some (.dir u) →
      Passes t links (place ++ [n]) ss k q → Passes t links place (.name n :: ss) k q
  | link {links place n node g ss k q} : t.get? (place ++ [n]) = some (.link node g) →
      g.octets ≠ [] →
      Passes t links (origin place g.octets) (steps g.octets ++ ss) k q →
      Passes t (links + 1) place (.name n :: ss) k q

variable {t t' : Tree} {last : Bool} {links links' bound k k' : Nat} {place d q q' : List RawText}
  {ss ms r : List Step}

/-! ## Going over a name -/

theorem Leads.over_dir {n : RawText} {u : Tree} (hn : t.get? (place ++ [n]) = some (.dir u))
    (h : Leads t last links place (.name n :: ss) d) : Leads t last links (place ++ [n]) ss d := by
  cases h with
  | dir _ h => exact h
  | file hn' => simp [hn] at hn'
  | here hn' _ => simp [hn] at hn'
  | link hn' _ _ _ => simp [hn] at hn'
  | missing hn' _ => simp [hn] at hn'

theorem Leads.over_link {n : RawText} {node : Nat} {g : RawText}
    (hn : t.get? (place ++ [n]) = some (.link node g))
    (hs : ss ≠ []) (h : Leads t last links place (.name n :: ss) d) :
    g.octets ≠ [] ∧ ∃ k, links = k + 1 ∧
      Leads t last k (origin place g.octets) (steps g.octets ++ ss) d := by
  cases h with
  | dir hn' _ => simp [hn] at hn'
  | file _ => exact absurd rfl hs
  | here _ _ => exact absurd rfl hs
  | link hn' _ hg h =>
    rw [hn] at hn'
    cases hn'
    exact ⟨hg, _, rfl, h⟩
  | missing hn' _ => simp [hn] at hn'

/-! ## Names that block the way -/

/-- Nothing is reached through the name, when at most so many links are followed. A slash behind a
name that stands for nothing is not a way through it. -/
def Blocked (t : Tree) (bound : Nat) (place : List RawText) (n : RawText) : Prop :=
  ∀ k ≤ bound, ∀ last r d, r ≠ [] → r ≠ [.slash] → ¬ Leads t last k place (.name n :: r) d

theorem blocked_of_none {n : RawText} (h : t.get? (place ++ [n]) = none) (bound : Nat) :
    Blocked t bound place n := by
  intro k _ last r d hr hr' hleads
  cases hleads with
  | dir hn _ => simp [h] at hn
  | file hn => simp [h] at hn
  | here hn _ => simp [h] at hn
  | link hn _ _ _ => simp [h] at hn
  | missing _ hs => exact hs.elim hr hr'

theorem blocked_of_file {n : RawText} {node : Nat} {c : Octets} {m : Nat}
    (h : t.get? (place ++ [n]) = some (.file node c m)) (bound : Nat) :
    Blocked t bound place n := by
  intro k _ last r d hr _ hleads
  cases hleads with
  | dir hn _ => simp [h] at hn
  | file _ => exact hr rfl
  | here hn _ => simp [h] at hn
  | link hn _ _ _ => simp [h] at hn
  | missing hn _ => simp [h] at hn

/-- A rest that goes on does so behind further steps. -/
theorem goes_on {r : List Step} (hr : r ≠ []) (hr' : r ≠ [.slash]) (ss : List Step) :
    ss ++ r ≠ [] ∧ ss ++ r ≠ [.slash] := by
  refine ⟨by simp [hr], fun h => ?_⟩
  rcases List.append_eq_singleton_iff.1 h with ⟨-, h⟩ | ⟨-, h⟩
  · exact hr' h
  · exact hr h

theorem goes_on_name (ss : List Step) (n : RawText) :
    ss ++ [.name n] ≠ [] ∧ ss ++ [.name n] ≠ [.slash] :=
  goes_on (by simp) (by simp) ss

/-- A link starts from a directory when it stands in one. -/
theorem exists_dir_origin (hplace : ∃ u, t.get? place = some (.dir u)) (g : Octets) :
    ∃ u, t.get? (origin place g) = some (.dir u) := by
  unfold origin
  split
  · exact ⟨t, rfl⟩
  · exact hplace

theorem exists_dir_dropLast (hplace : ∃ u, t.get? place = some (.dir u)) :
    ∃ u, t.get? place.dropLast = some (.dir u) := by
  obtain ⟨u, hu⟩ := hplace
  rcases List.eq_nil_or_concat place with rfl | ⟨front, n, rfl⟩
  · exact ⟨u, hu⟩
  · rw [List.concat_eq_append] at hu ⊢
    rw [List.dropLast_concat]
    exact Tree.exists_dir_of_get?_append hu (by simp)

/-- **No way goes on behind steps that lead to a file**, be it in a tree in which the directories
are still there, the files block the way, and each link is as it was or blocks the way as well. -/
theorem Leads.not_beyond_file (hdir : ∀ q u, t.get? q = some (.dir u) →
      ∃ v, t'.get? q = some (.dir v))
    (hfile : ∀ q n node c m, t.get? (q ++ [n]) = some (.file node c m) → Blocked t' bound q n)
    (hlink : ∀ q n node g, t.get? (q ++ [n]) = some (.link node g) →
      t'.get? (q ++ [n]) = some (.link node g) ∨ Blocked t' bound q n)
    (h : Leads t true links place ss d) {node : Nat} {c : Octets} {m : Nat}
    (hd : t.get? d = some (.file node c m)) (hplace : ∃ u, t.get? place = some (.dir u)) {k : Nat}
    (hk : k ≤ bound) {r : List Step} (hr : r ≠ []) (hr' : r ≠ [.slash]) {x : List RawText} :
    ¬ Leads t' last k place (ss ++ r) x := by
  induction h generalizing k with
  | done =>
    obtain ⟨u, hu⟩ := hplace
    rw [hu] at hd
    cases hd
  | stay _ ih =>
    intro h
    cases h with
    | stay h => exact ih hd hplace hk h
  | slash _ ih =>
    intro h
    cases h with
    | slash h => exact ih hd hplace hk h
  | up _ ih =>
    intro h
    cases h with
    | up h => exact ih hd (exists_dir_dropLast hplace) hk h
  | dir hn _ ih =>
    obtain ⟨v, hv⟩ := hdir _ _ hn
    intro h
    exact ih hd ⟨_, hn⟩ hk (h.over_dir hv)
  | file hn => exact hfile _ _ _ _ _ hn k hk _ _ _ hr hr'
  | here _ hl => cases hl
  | @link _ _ n _ g ss _ hn _ hg _ ih =>
    obtain ⟨hs, hs'⟩ := goes_on hr hr' ss
    intro h
    rcases hlink _ _ _ _ hn with hsame | hblocked
    · obtain ⟨-, k, rfl, hover⟩ := h.over_link hsame hs
      rw [← List.append_assoc] at hover
      exact ih hd (exists_dir_origin hplace _) (by omega) hover
    · exact hblocked k hk _ _ _ hs hs' h
  | missing hn _ => simp [hn] at hd

/-- A name that leads to a file blocks the way. -/
theorem blocked_of_leads_file {n : RawText} (h : Leads t true links place [.name n] d) {node : Nat}
    {c : Octets} {m : Nat} (hd : t.get? d = some (.file node c m))
    (hplace : ∃ u, t.get? place = some (.dir u)) (bound : Nat) : Blocked t bound place n := by
  have hfile : ∀ q n node c m, t.get? (q ++ [n]) = some (.file node c m) → Blocked t bound q n :=
    fun _ _ _ _ _ hfile => blocked_of_file hfile bound
  have hlink : ∀ q n node g, t.get? (q ++ [n]) = some (.link node g) →
      t.get? (q ++ [n]) = some (.link node g) ∨ Blocked t bound q n :=
    fun _ _ _ _ hlink => .inl hlink
  exact fun k hk last r x hr hr' =>
    h.not_beyond_file (fun _ u hu => ⟨u, hu⟩) hfile hlink hd hplace hk hr hr'

/-! ## Passages -/

theorem leads_single (t : Tree) (links : Nat) (place : List RawText) (n : RawText) :
    Leads t false links place [.name n] (place ++ [n]) := by
  rcases hn : t.get? (place ++ [n]) with _ | (⟨c, m⟩ | g | u)
  · exact .missing hn (.inl rfl)
  · exact .file hn
  · exact .here hn rfl
  · exact .dir hn .done

theorem Leads.eq_of_single {n : RawText} (h : Leads t false links place [.name n] d) :
    d = place ++ [n] := by
  have h' := (leads_single t links place n).resolveFrom_eq_ok
  rw [h.resolveFrom_eq_ok] at h'
  exact Except.ok.inj h'

/-- A way that goes on behind some steps passes over them. -/
theorem Leads.passes (hr : r ≠ []) (hr' : r ≠ [.slash]) (h : Leads t last links place (ms ++ r) d) :
    ∃ k q, Passes t links place ms k q ∧ Leads t last k q r d := by
  induction links using Nat.strongRecOn generalizing place ms with
  | ind links ihl =>
  induction ms generalizing place with
  | nil => exact ⟨links, place, .done, h⟩
  | cons s ms ih =>
    cases s with
    | stay =>
      cases h with
      | stay h =>
        obtain ⟨k, q, hp, hl⟩ := ih h
        exact ⟨k, q, .stay hp, hl⟩
    | slash =>
      cases h with
      | slash h =>
        obtain ⟨k, q, hp, hl⟩ := ih h
        exact ⟨k, q, .slash hp, hl⟩
    | up =>
      cases h with
      | up h =>
        obtain ⟨k, q, hp, hl⟩ := ih h
        exact ⟨k, q, .up hp, hl⟩
    | name n =>
      obtain ⟨hs, hs'⟩ := goes_on hr hr' ms
      rcases hn : t.get? (place ++ [n]) with _ | (⟨c, m⟩ | g | u)
      · exact absurd h (blocked_of_none hn links links (Nat.le_refl _) _ _ _ hs hs')
      · exact absurd h (blocked_of_file hn links links (Nat.le_refl _) _ _ _ hs hs')
      · obtain ⟨hg, k, rfl, hover⟩ := h.over_link hn hs
        rw [← List.append_assoc] at hover
        obtain ⟨k', q, hp, hl⟩ := ihl k (Nat.lt_succ_self _) hover
        exact ⟨k', q, .link hn hg hp, hl⟩
      · obtain ⟨k, q, hp, hl⟩ := ih (h.over_dir hn)
        exact ⟨k, q, .dir hn hp, hl⟩

theorem Passes.leads (h : Passes t links place ms k q) (hr : r ≠ []) (hl : Leads t last k q r d) :
    Leads t last links place (ms ++ r) d := by
  induction h with
  | done => exact hl
  | stay _ ih => exact .stay (ih hl)
  | slash _ ih => exact .slash (ih hl)
  | up _ ih => exact .up (ih hl)
  | dir hn _ ih => exact .dir hn (ih hl)
  | link hn hg _ ih =>
    have hover := ih hl
    rw [List.append_assoc] at hover
    exact .link hn (by simp [hr]) hg hover

/-- A passage is a way to its end. -/
theorem Passes.leads_end (h : Passes t links place ms k q) : Leads t true links place ms q := by
  induction h with
  | done => exact .done
  | stay _ ih => exact .stay ih
  | slash _ ih => exact .slash ih
  | up _ ih => exact .up ih
  | dir hn _ ih => exact .dir hn ih
  | link hn hg _ ih => exact .link hn (by simp) hg ih

theorem Passes.le (h : Passes t links place ms k q) : k ≤ links := by
  induction h with
  | done => exact Nat.le_refl _
  | link _ _ _ ih => exact Nat.le_succ_of_le ih
  | _ => assumption

/-- What is passed over does not block the way. -/
theorem Passes.not_blocked {n : RawText} (h : Passes t links place (.name n :: ss) k q)
    (hbound : links ≤ bound) : ¬ Blocked t bound place n := by
  intro hblocked
  obtain ⟨hs, hs'⟩ := goes_on_name ss "x"
  exact hblocked links hbound false _ _ hs hs' (h.leads (by simp) (leads_single t k q "x"))

/-- **A passage is one in the changed tree**, when the directories are still there and each link is
as it was or blocks the way already before the change. -/
theorem Passes.transfer (hdir : ∀ q u, t.get? q = some (.dir u) → ∃ v, t'.get? q = some (.dir v))
    (hlink : ∀ q n node g, t.get? (q ++ [n]) = some (.link node g) →
      t'.get? (q ++ [n]) = some (.link node g) ∨ Blocked t bound q n)
    (hbound : links ≤ bound) (h : Passes t links place ms k q) : Passes t' links place ms k q := by
  induction h with
  | done => exact .done
  | stay _ ih => exact .stay (ih hbound)
  | slash _ ih => exact .slash (ih hbound)
  | up _ ih => exact .up (ih hbound)
  | dir hn _ ih =>
    obtain ⟨v, hv⟩ := hdir _ _ hn
    exact .dir hv (ih hbound)
  | link hn hg hp ih =>
    rcases hlink _ _ _ _ hn with hsame | hblocked
    · exact .link hsame hg (ih (by omega))
    · exact absurd hblocked ((Passes.link hn hg hp).not_blocked hbound)

/-- **No passage in the changed tree ends elsewhere**, when the directories are still there and each
link is as it was or blocks the way after the change. -/
theorem Passes.unique (hdir : ∀ q u, t.get? q = some (.dir u) → ∃ v, t'.get? q = some (.dir v))
    (hlink : ∀ q n node g, t.get? (q ++ [n]) = some (.link node g) →
      t'.get? (q ++ [n]) = some (.link node g) ∨ Blocked t' bound q n)
    (h : Passes t links place ms k q) (hbound : links' ≤ bound)
    (h' : Passes t' links' place ms k' q') : q' = q := by
  induction h generalizing links' with
  | done =>
    cases h'
    rfl
  | stay _ ih =>
    cases h' with
    | stay h' => exact ih hbound h'
  | slash _ ih =>
    cases h' with
    | slash h' => exact ih hbound h'
  | up _ ih =>
    cases h' with
    | up h' => exact ih hbound h'
  | dir hn _ ih =>
    obtain ⟨v, hv⟩ := hdir _ _ hn
    cases h' with
    | dir _ h' => exact ih hbound h'
    | link hn' _ _ => simp [hv] at hn'
  | link hn _ _ ih =>
    rcases hlink _ _ _ _ hn with hsame | hblocked
    · cases h' with
      | dir hn' _ => simp [hsame] at hn'
      | link hn' _ h' =>
        rw [hsame] at hn'
        cases hn'
        exact ih (by omega) h'
    · exact absurd hblocked (h'.not_blocked hbound)

/-- A name blocks the way still when directories and links are taken away. -/
theorem Blocked.fewer {n : RawText}
    (hdir : ∀ q u, t'.get? q = some (.dir u) → ∃ v, t.get? q = some (.dir v))
    (hlink : ∀ q node g, t'.get? q = some (.link node g) → t.get? q = some (.link node g))
    (hb : Blocked t bound place n) : Blocked t' bound place n := by
  intro k hk last r d hr hr' hleads
  rw [← List.singleton_append] at hleads
  obtain ⟨k', q, hpass, -⟩ := hleads.passes hr hr'
  have hpass' : Passes t k place [.name n] k' q :=
    hpass.transfer hdir (fun q n node g hg => .inl (hlink _ _ _ hg)) hk
  exact hpass'.not_blocked hk hb

/-! ## The names in the directory of a path -/

/-- The names in the directory `p` are those at a place, when a link under such a name is not
followed. -/
def NamesAt (h : Host) (p : Path) (place : List RawText) : Prop :=
  ∀ n, IsName n → h.locate false (p.child n) = .ok (place ++ [n])

variable {h : Host} {p : Path} {n : RawText}

theorem locate_child_iff (hn : IsName n) :
    h.locate last (p.child n) = .ok d ↔
      0 ∉ p.spelling.octets ∧
        Leads h.tree last 40 (origin h.directory p.spelling.octets)
          (moves p.spelling.octets ++ [.name n]) d := by
  have hhead : n.octets.head? ≠ some Path.slash :=
    fun h => hn.2.2.2.1 (List.mem_of_mem_head? (by simp [h]))
  have hlast : n.octets.getLast? ≠ some Path.slash :=
    fun h => hn.2.2.2.1 (List.mem_of_mem_getLast? (by simp [h]))
  rw [locate_eq_ok_iff, steps_eq, moves_child p hn]
  by_cases hp : p.spelling.octets = []
  · obtain ⟨-, hc⟩ | ⟨hp', -⟩ := Path.spelling_child p hn
    · rw [hc, hp, if_neg hlast, List.append_nil]
      simp [origin, hhead, hn.1, hn.2.2.2.2]
    · exact absurd hp hp'
  · have hgoes := goesOn_child hp hn
    rw [if_neg hgoes.last, List.append_nil, hgoes.nul, origin, hgoes.head, origin]
    simp only [hgoes.nonempty, ne_eq, not_false_eq_true, true_and]

theorem namesAt_iff :
    h.NamesAt p place ↔ 0 ∉ p.spelling.octets ∧
      ∃ k, Passes h.tree 40 (origin h.directory p.spelling.octets) (moves p.spelling.octets) k
        place := by
  constructor
  · intro hn
    have hx : IsName "x" := by decide
    obtain ⟨hnul, hleads⟩ := (locate_child_iff hx).1 (hn "x" hx)
    obtain ⟨k, front, hp, hname⟩ := hleads.passes (by simp) (by simp)
    obtain rfl : place = front := List.append_cancel_right hname.eq_of_single
    exact ⟨hnul, k, hp⟩
  · rintro ⟨hnul, k, hp⟩ n hn
    exact (locate_child_iff hn).2 ⟨hnul, hp.leads (by simp) (leads_single _ k place n)⟩

/-- A name in the working directory. -/
theorem namesAt_of_name (hname : IsName n) {u : Tree}
    (hd : h.tree.get? (h.directory ++ [n]) = some (.dir u)) :
    h.NamesAt ⟨n⟩ (h.directory ++ [n]) := by
  have hhead : n.octets.head? ≠ some Path.slash :=
    fun h => hname.2.2.2.1 (List.mem_of_mem_head? (by simp [h]))
  have hmoves : moves n.octets = [.name n] := by
    rw [moves, Path.slashPieces_of_not_mem hname.2.2.2.1]
    simp [step?_name hname]
  refine namesAt_iff.2 ⟨hname.2.2.2.2, 40, ?_⟩
  rw [hmoves, origin, if_neg hhead]
  exact .dir hd .done

theorem NamesAt.eq (hn : h.NamesAt p place) (hq : h.NamesAt p q) : q = place := by
  have hx : IsName "x" := by decide
  have hsame := Except.ok.inj ((hq "x" hx).symm.trans (hn "x" hx))
  exact List.append_cancel_right hsame

/-- A name that leads somewhere tells where all the names are, and leads on from there. -/
theorem exists_namesAt (hname : IsName n) (hl : h.locate last (p.child n) = .ok d) :
    ∃ place, h.NamesAt p place ∧ ∃ k, k ≤ 40 ∧ Leads h.tree last k place [.name n] d := by
  obtain ⟨hnul, hleads⟩ := (locate_child_iff hname).1 hl
  obtain ⟨k, place, hp, hend⟩ := hleads.passes (by simp) (by simp)
  exact ⟨place, namesAt_iff.2 ⟨hnul, k, hp⟩, k, hp.le, hend⟩

/-- A name in the directory leads on from the place of the names. -/
theorem NamesAt.leads (hn : h.NamesAt p place) (hname : IsName n)
    (hl : h.locate last (p.child n) = .ok d) :
    ∃ k, k ≤ 40 ∧ Leads h.tree last k place [.name n] d := by
  obtain ⟨place', hn', hleads⟩ := exists_namesAt hname hl
  rw [hn.eq hn'] at hleads
  exact hleads

/-- The path leads to the directory that holds the names. -/
theorem NamesAt.locate_directory (hn : h.NamesAt p place) {u : Tree}
    (hd : h.tree.get? place = some (.dir u)) (hp : p.spelling.octets ≠ []) :
    h.locate true p = .ok place := by
  obtain ⟨hnul, k, hpass⟩ := namesAt_iff.1 hn
  refine locate_eq_ok_iff.2 ⟨hp, hnul, ?_⟩
  rw [steps_eq]
  split
  · exact hpass.leads_end.append_slash hd
  · simpa using hpass.leads_end

theorem NamesAt.entry (hn : h.NamesAt p place) {u : Tree} (hd : h.tree.get? place = some (.dir u))
    (hp : p.spelling.octets ≠ []) : h.entry p = .ok (.dir u) :=
  entry_eq_ok_iff.2 ⟨place, hn.locate_directory hd hp, hd⟩

/-- A name that stands for no link is where it is, links at the end followed or not. -/
theorem NamesAt.locate (hn : h.NamesAt p place) (hname : IsName n)
    (hfree : ∀ node g, h.tree.get? (place ++ [n]) ≠ some (.link node g)) (last : Bool) :
    h.locate last (p.child n) = .ok (place ++ [n]) := by
  cases last with
  | false => exact hn n hname
  | true =>
    obtain ⟨hnul, hleads⟩ := (locate_child_iff hname).1 (hn n hname)
    exact (locate_child_iff hname).2 ⟨hnul, hleads.follow hfree⟩

/-- What stands at a name in the directory stands among the names. -/
theorem exists_namesAt_of_ownEntry {e : Entry} (hname : IsName n)
    (ho : h.ownEntry (p.child n) = .ok e) :
    ∃ place, h.NamesAt p place ∧ h.tree.get? (place ++ [n]) = some e := by
  obtain ⟨d, hl, hd⟩ := ownEntry_eq_ok_iff.1 ho
  obtain ⟨place, hn, -⟩ := exists_namesAt hname hl
  obtain rfl : d = place ++ [n] := Except.ok.inj (hl.symm.trans (hn n hname))
  exact ⟨place, hn, hd⟩

theorem NamesAt.ownEntry_eq_ok_iff (hn : h.NamesAt p place) (hname : IsName n) (e : Entry) :
    h.ownEntry (p.child n) = .ok e ↔ h.tree.get? (place ++ [n]) = some e := by
  rw [ownEntry, hn n hname]
  cases hd : h.tree.get? (place ++ [n]) <;> simp [bind, Except.bind, hd]

theorem NamesAt.ownEntry_eq_notFound_iff (hn : h.NamesAt p place) (hname : IsName n) :
    h.ownEntry (p.child n) = .error .notFound ↔ h.tree.get? (place ++ [n]) = none := by
  rw [ownEntry, hn n hname]
  cases hd : h.tree.get? (place ++ [n]) <;> simp [bind, Except.bind, hd]

/-- A name that leads to a file is that of a file or of a link. -/
theorem exists_namesAt_of_entry_file {node : Nat} {c : Octets} {m : Nat} (hname : IsName n)
    (he : h.entry (p.child n) = .ok (.file node c m)) :
    ∃ place e, h.NamesAt p place ∧ h.tree.get? (place ++ [n]) = some e ∧ ∀ u, e ≠ .dir u := by
  have hown : ∃ e, h.ownEntry (p.child n) = .ok e ∧ ∀ u, e ≠ .dir u := by
    rcases ownEntry_of_entry he with hfile | ⟨k, g, hlink⟩
    · exact ⟨_, hfile, by simp⟩
    · exact ⟨_, hlink, by simp⟩
  obtain ⟨e, hown, hfree⟩ := hown
  obtain ⟨place, hn, hd⟩ := exists_namesAt_of_ownEntry hname hown
  exact ⟨place, e, hn, hd, hfree⟩

end Host

end CommitGate

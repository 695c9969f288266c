import CommitGate.Proofs.Ways

/-!
# Changes to files

Each operation on files changes the outline of the tree at a place or two, where no directory
stood, and leaves it as it is everywhere else. So the ways to other names stay what they were.
Making the directories of a path is the exception: it adds directories, and takes nothing away.

Results:

* `writeFile_ok`, `setMode_of_file`, `removeFile_ok`, `rename_ok`: what each operation changes, and
  what stands there afterwards.
* `sameBut_revise`: a change to a file that has no other name shows at that name.
* `makePath_madeFor`, `makePath_of_directory`: making directories keeps all that stood and adds
  directories on the way only, and does nothing when the directory is there.
* `NamesAt.sameBut`, `NamesAt.eq_of_sameBut`: the names in a directory stay where they were.
* `Moved.locate_eq`: after something that led to a file has another name, its old name leads to its
  old place at most.
-/

namespace CommitGate

open Text (Octets)

namespace Host

/-- The outline is another one at these places at most, and no directory stood there. -/
structure SameBut (places : List (List RawText)) (h h' : Host) : Prop where
  directory : h'.directory = h.directory
  outline : ∀ q, q ∉ places → h'.tree.outline? q = h.tree.outline? q
  free : ∀ q ∈ places, ∀ u, h.tree.get? q ≠ some (.dir u)

variable {h h' h'' : Host} {p q : Path} {places : List (List RawText)} {d place : List RawText}

namespace SameBut

theorem refl (h : Host) : SameBut [] h h :=
  ⟨rfl, fun _ _ => rfl, fun _ hq => absurd hq List.not_mem_nil⟩

theorem get?_file (hs : SameBut places h h') (hd : d ∉ places) {node : Nat} {c : Octets} {m : Nat} :
    h'.tree.get? d = some (.file node c m) ↔ h.tree.get? d = some (.file node c m) := by
  rw [← Tree.outline?_eq_file_iff, ← Tree.outline?_eq_file_iff, hs.outline d hd]

theorem get?_link (hs : SameBut places h h') (hd : d ∉ places) {node : Nat} {g : RawText} :
    h'.tree.get? d = some (.link node g) ↔ h.tree.get? d = some (.link node g) := by
  rw [← Tree.outline?_eq_link_iff, ← Tree.outline?_eq_link_iff, hs.outline d hd]

theorem get?_none (hs : SameBut places h h') (hd : d ∉ places) :
    h'.tree.get? d = none ↔ h.tree.get? d = none := by
  rw [← Tree.outline?_eq_none_iff, ← Tree.outline?_eq_none_iff, hs.outline d hd]

/-- Every directory is still there. -/
theorem get?_dir (hs : SameBut places h h') {u : Tree} (hd : h.tree.get? d = some (.dir u)) :
    ∃ v, h'.tree.get? d = some (.dir v) := by
  have hnot : d ∉ places := fun hmem => hs.free d hmem u hd
  rw [← Tree.outline?_eq_dir_iff, hs.outline d hnot, Tree.outline?_eq_dir_iff]
  exact ⟨u, hd⟩

theorem trans {more : List (List RawText)} (hs : SameBut places h h')
    (hs' : SameBut more h' h'') : SameBut (places ++ more) h h'' := by
  refine ⟨hs'.directory.trans hs.directory, fun q hq => ?_, fun q hq u hu => ?_⟩
  · rw [List.mem_append, not_or] at hq
    rw [hs'.outline q hq.2, hs.outline q hq.1]
  · obtain ⟨v, hv⟩ := hs.get?_dir hu
    rcases List.mem_append.1 hq with hq | hq
    · exact hs.free q hq u hu
    · exact hs'.free q hq v hv

theorem mono {more : List (List RawText)} (hs : SameBut places h h') (hsub : places ⊆ more)
    (hfree : ∀ q ∈ more, ∀ u, h.tree.get? q ≠ some (.dir u)) : SameBut more h h' :=
  ⟨hs.directory, fun q hq => hs.outline q fun hmem => hq (hsub hmem), hfree⟩

theorem symm (hs : SameBut places h h')
    (hfree : ∀ q ∈ places, ∀ u, h'.tree.get? q ≠ some (.dir u)) : SameBut places h' h :=
  ⟨hs.directory.symm, fun q hq => (hs.outline q hq).symm, hfree⟩

end SameBut

/-! ## One place -/

/-- A place without a directory has a last name. -/
theorem exists_concat_of_not_dir {t : Tree} (hfree : ∀ u, t.get? d ≠ some (.dir u)) :
    ∃ front n, d = front ++ [n] := by
  rcases List.eq_nil_or_concat d with rfl | ⟨front, n, rfl⟩
  · exact absurd rfl (hfree t)
  · exact ⟨front, n, List.concat_eq_append⟩

theorem sameBut_putEntry {e : Entry} (he : e.outline = e)
    (hfree : ∀ u, h.tree.get? d ≠ some (.dir u)) : SameBut [d] h (h.putEntry d e) := by
  obtain ⟨front, n, rfl⟩ := exists_concat_of_not_dir hfree
  refine ⟨rfl, fun q hq => ?_, fun q hq => ?_⟩
  · rw [putEntry, Tree.outline?_put he hfree, if_neg fun h => hq (by simp [h.1])]
  · rw [List.mem_singleton.1 hq]
    exact hfree

/-- What is put in a directory stands there. -/
theorem outline?_putEntry {e : Entry} {n : RawText} (he : e.outline = e)
    (hfree : ∀ u, h.tree.get? (place ++ [n]) ≠ some (.dir u))
    (hdir : ∃ u, h.tree.get? place = some (.dir u)) :
    (h.putEntry (place ++ [n]) e).tree.outline? (place ++ [n]) = some e := by
  rw [putEntry, Tree.outline?_put he hfree, if_pos ⟨rfl, Tree.outline?_eq_dir_iff.2 hdir⟩]

/-- A new file stands at its place, unless that is in no directory. -/
theorem get?_putEntry_new (hd : h.tree.get? d = none) (node : Nat) (c : Octets) (m : Nat) :
    (h.putEntry d (.file node c m)).tree.get? d = some (.file node c m) ∨
      (h.putEntry d (.file node c m)).tree.get? d = none := by
  have hfree : ∀ u, h.tree.get? d ≠ some (.dir u) := by simp [hd]
  obtain ⟨front, n, rfl⟩ := exists_concat_of_not_dir hfree
  rw [← Tree.outline?_eq_file_iff, ← Tree.outline?_eq_none_iff, putEntry,
    Tree.outline?_put rfl hfree]
  split
  · exact .inl rfl
  · exact .inr (Tree.outline?_eq_none_iff.2 hd)

theorem sameBut_erase (hfree : ∀ u, h.tree.get? d ≠ some (.dir u)) :
    SameBut [d] h { h with tree := h.tree.erase d } := by
  obtain ⟨front, n, rfl⟩ := exists_concat_of_not_dir hfree
  refine ⟨rfl, fun q hq => ?_, fun q hq => ?_⟩
  · rw [Tree.outline?_erase hfree, if_neg fun h => hq (by simp [h])]
  · rw [List.mem_singleton.1 hq]
    exact hfree

theorem get?_erase (hfree : ∀ u, h.tree.get? d ≠ some (.dir u)) :
    (h.tree.erase d).get? d = none := by
  obtain ⟨front, n, rfl⟩ := exists_concat_of_not_dir hfree
  rw [← Tree.outline?_eq_none_iff, Tree.outline?_erase hfree, if_pos rfl]

/-! ## One file -/

/-- A change to a file that has no other name shows at that name. -/
theorem sameBut_revise {node : Nat} {content : Octets → Octets} {mode : Nat → Nat}
    (hfree : ∀ u, h.tree.get? d ≠ some (.dir u))
    (honly : ∀ q c m, h.tree.get? q = some (.file node c m) → q = d) :
    SameBut [d] h (h.revise node content mode) := by
  refine ⟨rfl, fun q hq => ?_, fun q hq => ?_⟩
  · rw [revise, Tree.outline?_revise, Tree.outline?, Option.map_map]
    rcases hget : h.tree.get? q with _ | (⟨k, c, m⟩ | ⟨k, g⟩ | u)
    · rfl
    · have hk : k ≠ node := by
        rintro rfl
        exact hq (List.mem_singleton.2 (honly q c m hget))
      simp [Entry.outline, Entry.revise, hk]
    · rfl
    · rfl
  · rw [List.mem_singleton.1 hq]
    exact hfree

/-- A new file has one name. -/
theorem eq_of_get?_putEntry_new (hd : h.tree.get? d = none) {c c' : Octets} {m m' : Nat}
    (hq : (h.putEntry d (.file h.tree.freshNode c m)).tree.get? place =
      some (.file h.tree.freshNode c' m')) : place = d := by
  by_contra hne
  have hs : SameBut [d] h (h.putEntry d (.file h.tree.freshNode c m)) :=
    sameBut_putEntry rfl (by simp [hd])
  have hold := (hs.get?_file (by simpa using hne)).1 hq
  exact absurd (Tree.lt_freshNode_of_get? hold rfl) (Nat.lt_irrefl _)

/-- The names in a directory stay where they were when a file is changed. -/
theorem namesAt_revise {node : Nat} {content : Octets → Octets} {mode : Nat → Nat} :
    (h.revise node content mode).NamesAt p place ↔ h.NamesAt p place := by
  simp only [NamesAt, locate_revise]

/-! ## Ways through the changed tree -/

/-- The names in a directory stay where they were, when nothing could be reached through the links
that the change concerns. -/
theorem NamesAt.sameBut (hn : h.NamesAt p place) (hs : SameBut places h h')
    (hlink : ∀ q n node g, q ++ [n] ∈ places → h.tree.get? (q ++ [n]) = some (.link node g) →
      Blocked h.tree 40 q n) : h'.NamesAt p place := by
  obtain ⟨hnul, k, hpass⟩ := namesAt_iff.1 hn
  have hkept : ∀ q n node g, h.tree.get? (q ++ [n]) = some (.link node g) →
      h'.tree.get? (q ++ [n]) = some (.link node g) ∨ Blocked h.tree 40 q n := by
    intro q n node g hg
    by_cases hmem : q ++ [n] ∈ places
    · exact .inr (hlink q n node g hmem hg)
    · exact .inl ((hs.get?_link hmem).2 hg)
  rw [namesAt_iff, hs.directory]
  exact ⟨hnul, k, hpass.transfer (fun _ _ => hs.get?_dir) hkept (Nat.le_refl 40)⟩

/-- The names in a directory are nowhere else, when each link is as it was or nothing can be reached
through it any more. -/
theorem NamesAt.eq_of_sameBut (hn : h.NamesAt p place) (hs : SameBut places h h')
    (hlink : ∀ q n node g, h.tree.get? (q ++ [n]) = some (.link node g) →
      h'.tree.get? (q ++ [n]) = some (.link node g) ∨ Blocked h'.tree 40 q n)
    (hn' : h'.NamesAt p d) : d = place := by
  obtain ⟨-, k, hpass⟩ := namesAt_iff.1 hn
  obtain ⟨-, k', hpass'⟩ := namesAt_iff.1 hn'
  rw [hs.directory] at hpass'
  exact hpass.unique (fun _ _ => hs.get?_dir) hlink (Nat.le_refl 40) hpass'

/-! ## Writing and removing -/

/-- A file that is there is written under all its names. -/
theorem writeFile_of_file {node : Nat} {old : Octets} {m : Nat}
    (he : h.entry p = .ok (.file node old m)) (c : Octets) :
    h.writeFile p c = .ok (h.revise node (fun _ => c) id) := by
  obtain ⟨d, hl, hd⟩ := entry_eq_ok_iff.1 he
  simp [writeFile, bind, Except.bind, hl, hd]

/-- A file is written where one is, or made where nothing stood. The path leads to the new file
afterwards. -/
theorem writeFile_ok {c : Octets} (hw : h.writeFile p c = .ok h') :
    (∃ node old m, h.entry p = .ok (.file node old m) ∧ h' = h.revise node (fun _ => c) id) ∨
      ∃ d, h.locate true p = .ok d ∧ h.tree.get? d = none ∧ h'.locate true p = .ok d ∧
        h' = h.putEntry d (.file h.tree.freshNode c Entry.plainMode) := by
  simp only [writeFile, bind, Except.bind] at hw
  split at hw
  · cases hw
  · next d hl =>
    split at hw
    · next node old m hd =>
      cases hw
      exact .inl ⟨node, old, m, entry_eq_ok_iff.2 ⟨d, hl, hd⟩, rfl⟩
    · cases hw
    · next hd =>
      split at hw
      · next hback =>
        cases hw
        refine .inr ⟨d, hl, hd, ?_, rfl⟩
        cases hm : (h.putEntry d (.file h.tree.freshNode c Entry.plainMode)).locate true p with
        | error f => simp [hm, Except.toOption] at hback
        | ok d' => simpa [hm, Except.toOption] using hback
      · cases hw

/-- The permission bits of a file are changed under all its names. -/
theorem setMode_of_file {node : Nat} {c : Octets} {m : Nat}
    (he : h.entry p = .ok (.file node c m)) (mode : Nat) :
    h.setMode p mode = .ok (h.revise node id fun _ => mode) := by
  obtain ⟨d, hl, hd⟩ := entry_eq_ok_iff.1 he
  simp [setMode, canonical, bind, Except.bind, hl, hd]

theorem removeFile_ok (hr : h.removeFile p = .ok h') :
    ∃ d, h.locate false p = .ok d ∧ SameBut [d] h h' ∧ h'.tree.get? d = none := by
  simp only [removeFile, bind, Except.bind] at hr
  split at hr
  · cases hr
  · next d hl =>
    refine ⟨d, hl, ?_⟩
    split at hr
    · cases hr
    · cases hr
    · next e hdir he =>
      cases hr
      have hfree : ∀ u, h.tree.get? d ≠ some (.dir u) := by
        intro u hu
        exact hdir u (Option.some.inj (he.symm.trans hu))
      exact ⟨sameBut_erase hfree, get?_erase hfree⟩

theorem removeFile_of_not_dir {e : Entry} (hl : h.locate false p = .ok d)
    (hd : h.tree.get? d = some e) (hfree : ∀ u, e ≠ .dir u) : ∃ h', h.removeFile p = .ok h' := by
  cases e with
  | dir u => exact absurd rfl (hfree u)
  | file k c m | link k g => simp [removeFile, bind, Except.bind, hl, hd]

/-! ## Renaming -/

variable {old new : RawText} {e : Entry}

/-- Two names at a place stand for one file or link. -/
def OneFile (h : Host) (place : List RawText) (old new : RawText) : Prop :=
  ∃ e e' node, h.tree.get? (place ++ [old]) = some e ∧ h.tree.get? (place ++ [new]) = some e' ∧
    e.node? = some node ∧ e'.node? = some node

/-- An entry of a directory other than a directory has another name now. What had that name before
is gone. -/
structure Moved (place : List RawText) (old new : RawText) (e : Entry) (h h' : Host) : Prop where
  same : SameBut [place ++ [old], place ++ [new]] h h'
  before : h.tree.get? (place ++ [old]) = some e
  gone : h'.tree.get? (place ++ [old]) = none
  there : h'.tree.get? (place ++ [new]) = some e

theorem rename_eq (hold : h.locate false p = .ok (place ++ [old]))
    (hnew : h.locate false q = .ok (place ++ [new])) (he : h.tree.get? (place ++ [old]) = some e)
    (hfree : ∀ u, e ≠ .dir u) :
    h.rename p q =
      match h.tree.get? (place ++ [new]) with
      | some (.dir _) => .error .isDirectory
      | some e' =>
        if e.node? = e'.node? then .ok h
        else .ok { h with tree := (h.tree.erase (place ++ [old])).put (place ++ [new]) e }
      | none => .ok { h with tree := (h.tree.erase (place ++ [old])).put (place ++ [new]) e } := by
  cases e with
  | dir u => exact absurd rfl (hfree u)
  | file k c m | link k g =>
    simp only [rename, bind, Except.bind, hold, hnew, he]
    rcases h.tree.get? (place ++ [new]) with _ | (⟨k', c', m'⟩ | ⟨k', g'⟩ | u) <;> rfl

/-- Taking an entry away and putting it elsewhere in its directory moves it. -/
theorem moved_put (hne : old ≠ new) (he : h.tree.get? (place ++ [old]) = some e)
    (hfree : ∀ u, e ≠ .dir u) (hfreeNew : ∀ u, h.tree.get? (place ++ [new]) ≠ some (.dir u)) :
    Moved place old new e h
      { h with tree := (h.tree.erase (place ++ [old])).put (place ++ [new]) e } := by
  have hfreeOld : ∀ u, h.tree.get? (place ++ [old]) ≠ some (.dir u) := by
    intro u hu
    exact hfree u (Option.some.inj (he.symm.trans hu))
  let erased : Host := { h with tree := h.tree.erase (place ++ [old]) }
  have herased : SameBut [place ++ [old]] h erased := sameBut_erase hfreeOld
  have hfreeNew' : ∀ u, erased.tree.get? (place ++ [new]) ≠ some (.dir u) := by
    intro u hu
    have hdir := Tree.outline?_eq_dir_iff.2 ⟨u, hu⟩
    rw [herased.outline _ (by simpa using Ne.symm hne)] at hdir
    obtain ⟨v, hv⟩ := Tree.outline?_eq_dir_iff.1 hdir
    exact hfreeNew v hv
  have hout : e.outline = e := by
    cases e with
    | dir u => exact absurd rfl (hfree u)
    | file k c m | link k g => rfl
  have hput : SameBut [place ++ [new]] erased (erased.putEntry (place ++ [new]) e) :=
    sameBut_putEntry hout hfreeNew'
  obtain ⟨u, hu⟩ := Tree.exists_dir_of_get?_append he (by simp)
  have hstands := outline?_putEntry hout hfreeNew' (herased.get?_dir hu)
  exact {
    same := herased.trans hput
    before := he
    gone := (hput.get?_none (by simpa using hne)).2 (get?_erase hfreeOld)
    there := (Tree.outline?_eq_some_iff hfree).1 hstands }

/-- **A renaming moves an entry**, or does nothing when both names are those of one file. -/
theorem rename_ok (hr : h.rename p q = .ok h') (hold : h.locate false p = .ok (place ++ [old]))
    (hnew : h.locate false q = .ok (place ++ [new])) (hne : old ≠ new)
    (he : h.tree.get? (place ++ [old]) = some e) (hfree : ∀ u, e ≠ .dir u) :
    Moved place old new e h h' ∨ h' = h ∧ h.OneFile place old new := by
  rw [rename_eq hold hnew he hfree] at hr
  cases hthere : h.tree.get? (place ++ [new]) with
  | none =>
    rw [hthere] at hr
    exact .inl (Except.ok.inj hr ▸ moved_put hne he hfree (by simp [hthere]))
  | some e' =>
    rw [hthere] at hr
    cases e' with
    | dir u => cases hr
    | file k c m | link k g =>
      change (if e.node? = some k then _ else _) = _ at hr
      split at hr
      · next hnode => exact .inr ⟨(Except.ok.inj hr).symm, e, _, k, he, hthere, hnode, rfl⟩
      · exact .inl (Except.ok.inj hr ▸ moved_put hne he hfree (by simp [hthere]))

/-- Two names of one file both stay. -/
theorem rename_of_oneFile (hold : h.locate false p = .ok (place ++ [old]))
    (hnew : h.locate false q = .ok (place ++ [new])) (hone : h.OneFile place old new)
    (hr : h.rename p q = .ok h') : h' = h := by
  obtain ⟨e, e', node, he, he', hnode, hnode'⟩ := hone
  have hfree : ∀ {e : Entry}, e.node? = some node → ∀ u, e ≠ .dir u := by
    rintro _ hk u rfl
    cases hk
  rw [rename_eq hold hnew he (hfree hnode), he'] at hr
  cases e' with
  | dir u => exact absurd rfl (hfree hnode' u)
  | file k c m | link k g =>
    cases hnode'
    change (if e.node? = some node then _ else _) = _ at hr
    rw [if_pos hnode] at hr
    exact (Except.ok.inj hr).symm

namespace Moved

theorem link_or_blocked {bound : Nat} (hm : Moved place old new e h h')
    (hnew : Blocked h'.tree bound place new) (q : List RawText) (n : RawText) (node : Nat)
    (g : RawText) (hq : h.tree.get? (q ++ [n]) = some (.link node g)) :
    h'.tree.get? (q ++ [n]) = some (.link node g) ∨ Blocked h'.tree bound q n := by
  by_cases hmem : q ++ [n] ∈ [place ++ [old], place ++ [new]]
  · right
    rcases List.mem_pair.1 hmem with hat | hat
    · obtain ⟨rfl, rfl⟩ := List.append_singleton_inj.1 hat
      exact blocked_of_none hm.gone bound
    · obtain ⟨rfl, rfl⟩ := List.append_singleton_inj.1 hat
      exact hnew
  · exact .inl ((hm.same.get?_link hmem).2 hq)

theorem file_blocked {bound : Nat} (hm : Moved place old new e h h')
    (hnew : Blocked h'.tree bound place new) (q : List RawText) (n : RawText) (node : Nat)
    (c : Octets) (m : Nat) (hq : h.tree.get? (q ++ [n]) = some (.file node c m)) :
    Blocked h'.tree bound q n := by
  by_cases hmem : q ++ [n] ∈ [place ++ [old], place ++ [new]]
  · rcases List.mem_pair.1 hmem with hat | hat
    · obtain ⟨rfl, rfl⟩ := List.append_singleton_inj.1 hat
      exact blocked_of_none hm.gone bound
    · obtain ⟨rfl, rfl⟩ := List.append_singleton_inj.1 hat
      exact hnew
  · exact blocked_of_file ((hm.same.get?_file hmem).2 hq) bound

/-- **What led to a file under its old name is not passed through under its new one.** A file is
not, and a link leads on to the file, unless it comes back to itself. -/
theorem blocked {links : Nat} {node : Nat} {c : Octets} {m : Nat} (hm : Moved place old new e h h')
    (hl : Leads h.tree true links place [.name old] d) (hd : h.tree.get? d = some (.file node c m))
    (bound : Nat) : Blocked h'.tree bound place new := by
  -- a way through the link goes round at most as often as links may be followed
  induction bound using Nat.strongRecOn with
  | ind bound ih =>
  intro k hk last r x hr hr' hleads
  have hthere := hm.there
  cases hl with
  | dir hn h =>
    cases h
    rw [hn] at hd
    cases hd
  | file hn =>
    rw [Option.some.inj (hm.before.symm.trans hn)] at hthere
    exact blocked_of_file hthere bound k hk last r x hr hr' hleads
  | here _ hlast => cases hlast
  | missing hn _ => simp [hm.before] at hn
  | link hn _ _ hto =>
    rw [Option.some.inj (hm.before.symm.trans hn)] at hthere
    obtain ⟨-, k', rfl, hover⟩ := hleads.over_link hthere hr
    rw [List.append_nil] at hto
    have hfewer : Blocked h'.tree k' place new := ih k' (by omega)
    have hplace : ∃ u, h.tree.get? place = some (.dir u) :=
      Tree.exists_dir_of_get?_append hm.before (by simp)
    exact hto.not_beyond_file (fun _ _ => hm.same.get?_dir) (hm.file_blocked hfewer)
      (hm.link_or_blocked hfewer) hd (exists_dir_origin hplace _) (Nat.le_refl k') hr hr' hover

/-- **Nothing but the old place can be found under the old name**, when what stood there led to a
file. -/
theorem locate_eq {last : Bool} {node : Nat} {c : Octets} {m : Nat}
    (hm : Moved place old new e h h')
    (hname : IsName old) (hn : h.NamesAt p place)
    (hfile : h.entry (p.child old) = .ok (.file node c m))
    (hl : h'.locate last (p.child old) = .ok d) : d = place ++ [old] := by
  obtain ⟨f, hf, hget⟩ := entry_eq_ok_iff.1 hfile
  obtain ⟨k, -, hleads⟩ := hn.leads hname hf
  have hnew : Blocked h'.tree 40 place new := hm.blocked hleads hget 40
  obtain ⟨place', hn', k', -, hleads'⟩ := exists_namesAt hname hl
  obtain rfl : place' = place := hn.eq_of_sameBut hm.same (hm.link_or_blocked hnew) hn'
  cases hleads' with
  | dir hat _ => simp [hm.gone] at hat
  | file _ => rfl
  | here _ _ => rfl
  | link hat _ _ _ => simp [hm.gone] at hat
  | missing _ _ => rfl

end Moved

/-! ## Making directories -/

/-- All that stood is still there. -/
structure Grows (h h' : Host) : Prop where
  directory : h'.directory = h.directory
  kept : ∀ q e, h.tree.outline? q = some e → h'.tree.outline? q = some e

namespace Grows

theorem refl (h : Host) : Grows h h :=
  ⟨rfl, fun _ _ he => he⟩

theorem trans (hg : Grows h h') (hg' : Grows h' h'') : Grows h h'' :=
  ⟨hg'.directory.trans hg.directory, fun q e he => hg'.kept q e (hg.kept q e he)⟩

theorem get?_file (hg : Grows h h') {node : Nat} {c : Octets} {m : Nat}
    (hd : h.tree.get? d = some (.file node c m)) : h'.tree.get? d = some (.file node c m) :=
  Tree.outline?_eq_file_iff.1 (hg.kept _ _ (Tree.outline?_eq_file_iff.2 hd))

end Grows

/-- A way that ends at a directory afterwards is the same way in the grown tree: what was missing at
its end is that directory. -/
theorem Leads.grown {t t' : Tree} {last : Bool} {links : Nat} {ss : List Step}
    (hkept : ∀ q e, t.outline? q = some e → t'.outline? q = some e)
    (h : Leads t last links place ss d) (hd : ∃ u, t'.get? d = some (.dir u)) :
    Leads t' last links place ss d := by
  have hlink : ∀ {q node g}, t.get? q = some (.link node g) → t'.get? q = some (.link node g) :=
    fun hq => Tree.outline?_eq_link_iff.1 (hkept _ _ (Tree.outline?_eq_link_iff.2 hq))
  induction h with
  | done => exact .done
  | stay _ ih => exact .stay (ih hd)
  | slash _ ih => exact .slash (ih hd)
  | up _ ih => exact .up (ih hd)
  | dir hn _ ih =>
    obtain ⟨v, hv⟩ := Tree.outline?_eq_dir_iff.1 (hkept _ _ (Tree.outline?_eq_dir_iff.2 ⟨_, hn⟩))
    exact .dir hv (ih hd)
  | file hn =>
    obtain ⟨u, hu⟩ := hd
    rw [Tree.outline?_eq_file_iff.1 (hkept _ _ (Tree.outline?_eq_file_iff.2 hn))] at hu
    cases hu
  | here hn _ =>
    obtain ⟨u, hu⟩ := hd
    rw [hlink hn] at hu
    cases hu
  | link hn hl hg _ ih => exact .link (hlink hn) hl hg (ih hd)
  | missing _ hs =>
    obtain ⟨u, hu⟩ := hd
    rcases hs with rfl | rfl
    · exact .dir hu .done
    · exact .dir hu (.slash .done)

theorem Grows.locate {last : Bool} (hg : Grows h h') (hl : h.locate last p = .ok d)
    (hd : ∃ u, h'.tree.get? d = some (.dir u)) : h'.locate last p = .ok d := by
  obtain ⟨hne, hnul, hleads⟩ := locate_eq_ok_iff.1 hl
  refine locate_eq_ok_iff.2 ⟨hne, hnul, ?_⟩
  rw [hg.directory]
  exact hleads.grown hg.kept hd

/-- Nothing has changed, but that directories were made to which these paths lead. -/
structure MadeFor (paths : List Path) (h h' : Host) : Prop extends Grows h h' where
  made : ∀ q, h.tree.get? q = none → h'.tree.get? q ≠ none →
    ∃ p ∈ paths, h'.locate true p = .ok q ∧ ∃ u, h'.tree.get? q = some (.dir u)

namespace MadeFor

variable {paths more : List Path}

theorem refl (paths : List Path) (h : Host) : MadeFor paths h h :=
  ⟨.refl h, fun _ hq hq' => absurd hq hq'⟩

theorem mono (hm : MadeFor paths h h') (hsub : paths ⊆ more) : MadeFor more h h' := by
  refine ⟨hm.toGrows, fun q hq hq' => ?_⟩
  obtain ⟨p, hp, hmade⟩ := hm.made q hq hq'
  exact ⟨p, hsub hp, hmade⟩

theorem trans (hm : MadeFor paths h h') (hm' : MadeFor paths h' h'') : MadeFor paths h h'' := by
  refine ⟨hm.toGrows.trans hm'.toGrows, fun q hq hq' => ?_⟩
  by_cases hmid : h'.tree.get? q = none
  · exact hm'.made q hmid hq'
  · obtain ⟨p, hp, hl, hdir⟩ := hm.made q hq hmid
    have hdir' := Tree.outline?_eq_dir_iff.1 (hm'.kept _ _ (Tree.outline?_eq_dir_iff.2 hdir))
    exact ⟨p, hp, hm'.locate hl hdir', hdir'⟩

/-- What changes no place adds no directory. -/
theorem of_sameBut (paths : List Path) (hs : SameBut [] h h') : MadeFor paths h h' := by
  have hout : ∀ q, h'.tree.outline? q = h.tree.outline? q := fun q => hs.outline q List.not_mem_nil
  refine ⟨⟨hs.directory, fun q e he => (hout q).trans he⟩, fun q hq hq' => ?_⟩
  exact absurd ((hs.get?_none List.not_mem_nil).2 hq) hq'

/-- What was found when directories only were made was there before, unless it is one. -/
theorem get?_of_made (hm : MadeFor paths h h') {e : Entry} (hfree : ∀ u, e ≠ .dir u)
    (hd : h'.tree.get? d = some e) : h.tree.get? d = some e := by
  by_cases hold : h.tree.get? d = none
  · obtain ⟨p, -, -, u, hu⟩ := hm.made d hold (by simp [hd])
    rw [hu] at hd
    exact absurd (Option.some.inj hd).symm (hfree u)
  · rw [← Tree.outline?_eq_none_iff] at hold
    rw [← Tree.outline?_eq_some_iff hfree] at hd ⊢
    obtain ⟨e', he'⟩ := Option.ne_none_iff_exists'.1 hold
    rw [he', ← hd, hm.kept d e' he']

end MadeFor

/-- A directory is made where nothing stood, unless that is in no directory. -/
theorem makeDirectory_ok (hm : h.makeDirectory p = .ok h') :
    ∃ d, h.locate false p = .ok d ∧ h.tree.get? d = none ∧ SameBut [d] h h' ∧
      (h'.tree.get? d = none ∨ ∃ u, h'.tree.get? d = some (.dir u)) := by
  simp only [makeDirectory, bind, Except.bind] at hm
  split at hm
  · cases hm
  · next d hl =>
    split at hm
    · cases hm
    · next hd =>
      cases hm
      have hfree : ∀ u, h.tree.get? d ≠ some (.dir u) := by simp [hd]
      refine ⟨d, hl, hd, sameBut_putEntry rfl hfree, ?_⟩
      obtain ⟨front, n, rfl⟩ := exists_concat_of_not_dir hfree
      rw [← Tree.outline?_eq_dir_iff, ← Tree.outline?_eq_none_iff, putEntry,
        Tree.outline?_put rfl hfree]
      split
      · exact .inr rfl
      · exact .inl (Tree.outline?_eq_none_iff.2 hd)

theorem makeDirectory_madeFor (hm : h.makeDirectory p = .ok h') : MadeFor [p] h h' := by
  obtain ⟨d, hl, hd, hs, hmade⟩ := makeDirectory_ok hm
  have hgrows : Grows h h' := by
    refine ⟨hs.directory, fun q e he => ?_⟩
    rw [hs.outline q, he]
    intro hq
    rw [List.mem_singleton.1 hq, Tree.outline?_eq_none_iff.2 hd] at he
    cases he
  refine ⟨hgrows, fun q hq hq' => ?_⟩
  obtain rfl : q = d := by
    by_contra hne
    exact hq' ((hs.get?_none (by simpa using hne)).2 hq)
  obtain ⟨u, hu⟩ := hmade.resolve_left hq'
  obtain ⟨hne, hnul, hleads⟩ := locate_eq_ok_iff.1 (hgrows.locate hl ⟨u, hu⟩)
  exact ⟨p, by simp, locate_eq_ok_iff.2 ⟨hne, hnul, hleads.follow (by simp [hu])⟩, u, hu⟩

theorem makeDirectories_madeFor (h : Host) (ps : List Path) :
    MadeFor ps h (h.makeDirectories ps).2 := by
  induction ps with
  | nil => exact .refl [] h
  | cons p above ih =>
    have habove : MadeFor (p :: above) h (h.makeDirectories above).2 := ih.mono (by simp)
    have hone : ∀ {h h' : Host}, h.makeDirectory p = .ok h' → MadeFor (p :: above) h h' :=
      fun hm => (makeDirectory_madeFor hm).mono (by simp)
    unfold makeDirectories
    split
    · exact .refl _ h
    · split
      · next made hm => exact hone hm
      · split
        · next e h' ha => simpa [ha] using habove
        · next h' ha =>
          rw [ha] at habove
          split
          · next made hm => exact habove.trans (hone hm)
          · exact habove
      · exact .refl _ h

/-- **Making directories keeps all that stood**, and adds directories on the way only. -/
theorem makePath_madeFor (h : Host) (p : Path) : MadeFor p.ancestors h (h.makePath p).2 :=
  makeDirectories_madeFor h p.ancestors

theorem makePath_grows (h : Host) (p : Path) : Grows h (h.makePath p).2 :=
  (makePath_madeFor h p).toGrows

theorem makeDirectory_of_entry {e : Entry} (he : h.entry p = .ok e) :
    h.makeDirectory p = .error .exists := by
  have hown : ∃ e', h.ownEntry p = .ok e' := by
    rcases ownEntry_of_entry he with he' | ⟨k, g, hg⟩
    · exact ⟨_, he'⟩
    · exact ⟨_, hg⟩
  obtain ⟨e', he'⟩ := hown
  obtain ⟨d, hl, hd⟩ := ownEntry_eq_ok_iff.1 he'
  simp [makeDirectory, bind, Except.bind, hl, hd]

/-- A directory that is there is not made, nor is any above it. -/
theorem makeDirectories_of_directory {u : Tree} (above : List Path)
    (hp : p.spelling.octets = [] ∨ h.entry p = .ok (.dir u)) :
    h.makeDirectories (p :: above) = (.ok (), h) := by
  rw [makeDirectories]
  split
  · rfl
  · next hne =>
    have hdir := hp.resolve_left hne
    have hthere : h.isDirectory p = true := by rw [isDirectory, hdir]
    rw [makeDirectory_of_entry hdir]
    simp [hthere]

theorem exists_ancestorsUpTo (k : Nat) (p : Path) : ∃ above, p.ancestorsUpTo k = p :: above := by
  cases k with
  | zero => exact ⟨_, rfl⟩
  | succ k => exact ⟨_, rfl⟩

theorem makePath_of_directory {u : Tree}
    (hp : p.spelling.octets = [] ∨ h.entry p = .ok (.dir u)) : h.makePath p = (.ok (), h) := by
  obtain ⟨above, habove⟩ := exists_ancestorsUpTo p.spelling.octets.length p
  rw [makePath, Path.ancestors, habove, makeDirectories_of_directory above hp]

theorem NamesAt.makePath (hn : h.NamesAt p place) (hdir : ∃ u, h.tree.get? place = some (.dir u)) :
    h.makePath p = (.ok (), h) := by
  obtain ⟨u, hu⟩ := hdir
  refine makePath_of_directory (u := u) ?_
  by_cases hp : p.spelling.octets = []
  · exact .inl hp
  · exact .inr (hn.entry hu hp)

end Host

end CommitGate

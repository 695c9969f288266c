import CommitGate.Hook
import CommitGate.Proofs.FileChange
import CommitGate.Proofs.Utf8

/-!
# Steps of the hook commands

An installation or a removal changes the files at the place of the hook and at that of its backup,
and otherwise makes directories only. What one command can do to the host is said here once.

Results:

* `isOwnHook_eq_ok_iff`: a hook is read as text, and the marker in it decides.
* `writeHook_cases`: where a script is written, and that it stands there after a success.
* `installHook_outcomes`, `uninstallHook_cases`: what an installation and a removal can do.
* `written_of_moved`, `removed_of_removeFile`: what is left of a hook that is moved or removed.
-/

namespace CommitGate

open Text (Octets)

namespace Hook

/-- The content is text, and whether the marker stands in it. -/
def IsText (content : Octets) (marked : Bool) : Prop :=
  ∃ s, Text.decode? content = some s ∧ stands marker (String.ofList s) = marked

theorem isName_name : IsName name := by decide

theorem isName_backupName : IsName backupName := by decide

theorem isText_script : IsText scriptOctets true := by
  refine ⟨script.toList, Text.decode?_encode _, ?_⟩
  rw [String.ofList_toList]
  exact marker_stands_in_script

end Hook

namespace Host

open Hook (IsText scriptOctets isName_name isName_backupName isText_script)

variable {h h' made : Host} {p hooks : Path} {place d : List RawText}

/-! ## Reading -/

theorem isOwnHook_eq_ok_iff {own : Bool} :
    h.isOwnHook p = .ok own ↔
      ∃ node c m, h.entry p = .ok (.file node c m) ∧ IsText c own := by
  unfold isOwnHook readText readFile IsText
  cases he : h.entry p with
  | error f => simp [bind, Except.bind]
  | ok e =>
    cases e with
    | link k g => simp [bind, Except.bind]
    | dir u => simp [bind, Except.bind]
    | file k c m => cases hd : Text.decode? c <;> simp [bind, Except.bind, hd]

theorem fault_of_isOwnHook {f : Failure} (ho : h.isOwnHook p = .error f) :
    ∃ fault, f = .ofFault "read existing hook" fault := by
  unfold isOwnHook at ho
  split at ho
  · cases ho
  · exact ⟨_, (Except.error.inj ho).symm⟩

theorem isOwnHook_of_script {node : Nat}
    (he : h.entry p = .ok (.file node scriptOctets Entry.scriptMode)) :
    h.isOwnHook p = .ok true :=
  isOwnHook_eq_ok_iff.2 ⟨_, _, _, he, isText_script⟩

theorem pathExists_of_isOwnHook {own : Bool} (ho : h.isOwnHook p = .ok own) :
    h.pathExists p = true := by
  obtain ⟨node, c, m, he, -⟩ := isOwnHook_eq_ok_iff.1 ho
  exact pathExists_iff.2 ⟨_, he⟩

/-! ## Writing -/

theorem makeExecutable_of_file {node : Nat} {c : Octets} {m : Nat}
    (he : h.entry p = .ok (.file node c m)) :
    h.makeExecutable p = (.ok (), h.revise node id fun _ => Entry.scriptMode) := by
  simp [makeExecutable, he, setMode_of_file he]

/-- **A file that is there becomes the executable script**, under all its names. -/
theorem writeHook_of_file {node : Nat} {c : Octets} {m : Nat}
    (he : h.entry p = .ok (.file node c m)) (b : Option Path) :
    h.writeHook p b = (.ok (.installed p b),
      h.revise node (fun _ => scriptOctets) fun _ => Entry.scriptMode) := by
  unfold writeHook
  -- the script is long, and which octets it has does not matter here
  generalize scriptOctets = script
  have hwritten : (h.revise node (fun _ => script) id).entry p = .ok (.file node script m) := by
    rw [entry_revise, he]
    simp [Except.map, Entry.revise]
  simp only [writeFile_of_file he, makeExecutable_of_file hwritten]
  simp only [revise, Tree.revise_revise]
  rfl

/-- A new file becomes the executable script, and nothing else changes. -/
theorem writeHook_of_new (hl : h.locate true p = .ok d) (hd : h.tree.get? d = none)
    (hback : (h.putEntry d (.file h.tree.freshNode scriptOctets Entry.plainMode)).locate true p =
      .ok d)
    (hthere : (h.putEntry d (.file h.tree.freshNode scriptOctets Entry.plainMode)).tree.get? d =
      some (.file h.tree.freshNode scriptOctets Entry.plainMode)) (b : Option Path) :
    ∃ h', h.writeHook p b = (.ok (.installed p b), h') ∧ SameBut [d] h h' ∧
      h'.locate true p = .ok d ∧
      ∃ node, h'.tree.get? d = some (.file node scriptOctets Entry.scriptMode) := by
  unfold writeHook
  generalize scriptOctets = script at hback hthere ⊢
  let written := h.putEntry d (.file h.tree.freshNode script Entry.plainMode)
  have hwrite : h.writeFile p script = .ok written := by
    simp only [writeFile, bind, Except.bind, hl, hd, hback, Except.toOption, if_true, written]
  have he : written.entry p = .ok (.file h.tree.freshNode script Entry.plainMode) :=
    entry_eq_ok_iff.2 ⟨d, hback, hthere⟩
  have hput : SameBut [d] h written := sameBut_putEntry rfl (by simp [hd])
  refine ⟨written.revise h.tree.freshNode id fun _ => Entry.scriptMode, ?_, ?_, ?_, ?_⟩
  · simp only [hwrite, makeExecutable_of_file he]
  · have honly : ∀ q c m, written.tree.get? q = some (.file h.tree.freshNode c m) → q = d :=
      fun q c m hq => eq_of_get?_putEntry_new hd hq
    have hfree : ∀ u, written.tree.get? d ≠ some (.dir u) := by simp [written, hthere]
    exact (hput.trans (sameBut_revise hfree honly)).mono (by simp) hput.free
  · rw [locate_revise]
    exact hback
  · refine ⟨h.tree.freshNode, ?_⟩
    rw [revise, Tree.get?_revise, hthere]
    simp [Entry.revise]

/-- Nothing is written, or the file to which the path leads becomes the script, or a new file is
made where nothing stood. -/
theorem writeHook_cases {b : Option Path} {r : Except Failure Installation}
    (hw : h.writeHook p b = (r, h')) :
    ((∃ f, r = .error f) ∧ SameBut [] h h') ∨
      (∃ node c m, h.entry p = .ok (.file node c m) ∧ r = .ok (.installed p b) ∧
        h' = h.revise node (fun _ => scriptOctets) fun _ => Entry.scriptMode) ∨
      ∃ d, h.locate true p = .ok d ∧ h.tree.get? d = none ∧ SameBut [d] h h' ∧
        r = .ok (.installed p b) ∧ h'.locate true p = .ok d ∧
        ∃ node, h'.tree.get? d = some (.file node scriptOctets Entry.scriptMode) := by
  rcases hwrite : h.writeFile p scriptOctets with f | written
  · rw [writeHook, hwrite] at hw
    obtain ⟨rfl, rfl⟩ := Prod.mk.inj hw
    exact .inl ⟨⟨_, rfl⟩, .refl h⟩
  · rcases writeFile_ok hwrite with ⟨node, c, m, he, -⟩ | ⟨d, hl, hd, hback, rfl⟩
    · rw [writeHook_of_file he] at hw
      obtain ⟨rfl, rfl⟩ := Prod.mk.inj hw
      exact .inr (.inl ⟨node, c, m, he, rfl, rfl⟩)
    · rcases get?_putEntry_new hd h.tree.freshNode scriptOctets Entry.plainMode with
        hthere | hgone
      · obtain ⟨made, hmade, hs, hl', hscript⟩ := writeHook_of_new hl hd hback hthere b
        rw [hmade] at hw
        obtain ⟨rfl, rfl⟩ := Prod.mk.inj hw
        exact .inr (.inr ⟨d, hl, hd, hs, rfl, hl', hscript⟩)
      · -- the place is in no directory, so there is no file to be made executable
        have he : (h.putEntry d (.file h.tree.freshNode scriptOctets Entry.plainMode)).entry p =
            .error .notFound := by
          simp only [entry, hback, bind, Except.bind, hgone, Option.elim_none]
        simp only [writeHook, hwrite, makeExecutable, he] at hw
        obtain ⟨rfl, rfl⟩ := Prod.mk.inj hw
        refine .inl ⟨⟨_, rfl⟩, rfl, fun q _ => ?_, fun q hq => absurd hq List.not_mem_nil⟩
        by_cases hq : q = d
        · rw [hq, Tree.outline?_eq_none_iff.2 hd, Tree.outline?_eq_none_iff.2 hgone]
        · exact (sameBut_putEntry rfl (by simp [hd])).outline q (by simpa using hq)

theorem writeHook_ok {b : Option Path} {i : Installation} (hw : h.writeHook p b = (.ok i, h')) :
    i = .installed p b ∧
      ∃ node, h'.entry p = .ok (.file node scriptOctets Entry.scriptMode) := by
  rcases writeHook_cases hw with
    ⟨⟨f, hf⟩, -⟩ | ⟨node, c, m, he, hr, rfl⟩ | ⟨d, -, -, -, hr, hl, node, hd⟩
  · cases hf
  · refine ⟨Except.ok.inj hr, node, ?_⟩
    rw [entry_revise, he]
    simp [Except.map, Entry.revise]
  · exact ⟨Except.ok.inj hr, node, entry_eq_ok_iff.2 ⟨d, hl, hd⟩⟩

/-- A script that cannot be written leaves everything as it was. -/
theorem writeHook_error {b : Option Path} {f : Failure} (hw : h.writeHook p b = (.error f, h')) :
    SameBut [] h h' := by
  rcases writeHook_cases hw with ⟨-, hs⟩ | ⟨_, _, _, _, hr, -⟩ | ⟨_, _, _, _, hr, -⟩
  · exact hs
  · cases hr
  · cases hr

theorem writeHook_answer (h : Host) (p : Path) (b : Option Path) :
    (h.writeHook p b).1 = .ok (.installed p b) ∨
      ∃ text fault, (h.writeHook p b).1 = .error (.ofFault text fault) := by
  unfold writeHook
  split
  · exact .inr ⟨_, _, rfl⟩
  · split
    · next hm =>
      unfold makeExecutable at hm
      split at hm
      · exact .inr ⟨_, _, congrArg Except.error (Except.error.inj (Prod.mk.inj hm).1).symm⟩
      · split at hm
        · exact .inr ⟨_, _, congrArg Except.error (Except.error.inj (Prod.mk.inj hm).1).symm⟩
        · cases (Prod.mk.inj hm).1
    · exact .inl rfl

/-- Where nothing stands in a directory, the script is written. -/
theorem writeHook_of_absent {n : RawText} (hname : IsName n) (hn : h.NamesAt hooks place)
    (hdir : ∃ u, h.tree.get? place = some (.dir u)) (habsent : h.tree.get? (place ++ [n]) = none)
    (b : Option Path) :
    ∃ h', h.writeHook (hooks.child n) b = (.ok (.installed (hooks.child n) b), h') ∧
      SameBut [place ++ [n]] h h' ∧
      ∃ node, h'.tree.get? (place ++ [n]) =
        some (.file node scriptOctets Entry.scriptMode) := by
  have hfree : ∀ u, h.tree.get? (place ++ [n]) ≠ some (.dir u) := by simp [habsent]
  let script : Entry := .file h.tree.freshNode scriptOctets Entry.plainMode
  have hs : SameBut [place ++ [n]] h (h.putEntry (place ++ [n]) script) :=
    sameBut_putEntry rfl hfree
  have hthere : (h.putEntry (place ++ [n]) script).tree.get? (place ++ [n]) = some script :=
    Tree.outline?_eq_file_iff.1 (outline?_putEntry rfl hfree hdir)
  have hn' : (h.putEntry (place ++ [n]) script).NamesAt hooks place := by
    refine hn.sameBut hs fun q m node g hmem hg => ?_
    rw [List.mem_singleton.1 hmem, habsent] at hg
    cases hg
  have hl : h.locate true (hooks.child n) = .ok (place ++ [n]) :=
    hn.locate hname (by simp [habsent]) true
  have hback := hn'.locate hname (by simp [hthere, script]) true
  obtain ⟨made, hw, hsame, -, hscript⟩ := writeHook_of_new hl habsent hback hthere b
  exact ⟨made, hw, hsame, hscript⟩

/-- Writing a script moves no directory. -/
theorem namesAt_of_writeHook {b : Option Path} {r : Except Failure Installation}
    (hw : h.writeHook p b = (r, h')) (hn : h'.NamesAt hooks place) : h.NamesAt hooks place := by
  rcases writeHook_cases hw with
    ⟨-, hs⟩ | ⟨_, _, _, _, -, rfl⟩ | ⟨d, -, -, hs, -, -, node, hd⟩
  · refine hn.sameBut (hs.symm fun q hq => absurd hq List.not_mem_nil) fun q n node g hmem => ?_
    exact absurd hmem List.not_mem_nil
  · exact namesAt_revise.1 hn
  · have hback : SameBut [d] h' h := by
      refine hs.symm fun q hq u hu => ?_
      rw [List.mem_singleton.1 hq, hd] at hu
      cases hu
    refine hn.sameBut hback fun q n node g hmem hg => ?_
    rw [List.mem_singleton.1 hmem, hd] at hg
    cases hg

/-! ## Answers -/

theorem installHook_of_own {force : Bool} (hmake : h.makePath hooks = (.ok (), h))
    (ho : h.isOwnHook (hooks.child Hook.name) = .ok true) :
    h.installHook hooks force = (.ok (.already (hooks.child Hook.name)), h) := by
  simp [installHook, hmake, installIn, pathExists_of_isOwnHook ho, ho]

theorem installHook_of_foreign (hmake : h.makePath hooks = (.ok (), h))
    (ho : h.isOwnHook (hooks.child Hook.name) = .ok false) :
    h.installHook hooks false = (.error (.hookExists (hooks.child Hook.name)), h) := by
  simp [installHook, hmake, installIn, pathExists_of_isOwnHook ho, ho]

theorem installHook_of_renamed {moved : Host} (hmake : h.makePath hooks = (.ok (), h))
    (ho : h.isOwnHook (hooks.child Hook.name) = .ok false)
    (hr : h.rename (hooks.child Hook.name) (hooks.child Hook.backupName) = .ok moved) :
    h.installHook hooks true =
      moved.writeHook (hooks.child Hook.name) (some (hooks.child Hook.backupName)) := by
  simp [installHook, hmake, installIn, pathExists_of_isOwnHook ho, ho, hr]

theorem installHook_of_absent {force : Bool} (hmake : h.makePath hooks = (.ok (), h))
    (hp : h.pathExists (hooks.child Hook.name) = false) :
    h.installHook hooks force = h.writeHook (hooks.child Hook.name) none := by
  simp [installHook, hmake, installIn, hp]

theorem uninstallHook_of_own (ho : h.isOwnHook (hooks.child Hook.name) = .ok true)
    (hr : h.removeFile (hooks.child Hook.name) = .ok h') :
    h.uninstallHook hooks = (.ok (.removed (hooks.child Hook.name)
      (if h'.pathExists (hooks.child Hook.backupName) then some (hooks.child Hook.backupName)
        else none)), h') := by
  simp [uninstallHook, pathExists_of_isOwnHook ho, ho, hr]

theorem uninstallHook_of_foreign (ho : h.isOwnHook (hooks.child Hook.name) = .ok false) :
    h.uninstallHook hooks = (.ok (.foreign (hooks.child Hook.name)), h) := by
  simp [uninstallHook, pathExists_of_isOwnHook ho, ho]

theorem uninstallHook_of_absent (hp : h.pathExists (hooks.child Hook.name) = false) :
    h.uninstallHook hooks = (.ok (.absent (hooks.child Hook.name)), h) := by
  simp [uninstallHook, hp]

/-! ## What a command can do -/

/-- An installation that finds a hook may leave it alone, for one of four reasons, and says so. -/
inductive LeavesAlone (h : Host) (hooks : Path) (force : Bool) :
    Except Failure Installation → Prop
  | unreadable {f : Failure} (read : h.isOwnHook (hooks.child Hook.name) = .error f) :
      LeavesAlone h hooks force (.error f)
  | own (read : h.isOwnHook (hooks.child Hook.name) = .ok true) :
      LeavesAlone h hooks force (.ok (.already (hooks.child Hook.name)))
  | foreign (read : h.isOwnHook (hooks.child Hook.name) = .ok false) (unforced : force = false) :
      LeavesAlone h hooks force (.error (.hookExists (hooks.child Hook.name)))
  | stuck {e : Fault} (read : h.isOwnHook (hooks.child Hook.name) = .ok false)
      (forced : force = true)
      (moving : h.rename (hooks.child Hook.name) (hooks.child Hook.backupName) = .error e) :
      LeavesAlone h hooks force (.error (.ofFault "backup hook" e))

/-- **What an installation can do.** It cannot make the directory, or leaves the hook alone that it
finds there, or writes the script where there is none, or moves a foreign hook first. -/
theorem installHook_outcomes {force : Bool} {r : Except Failure Installation}
    (hi : h.installHook hooks force = (r, h')) :
    (∃ e, h.makePath hooks = (.error e, h') ∧ r = .error (.ofFault "create hooks dir" e)) ∨
      ∃ made, h.makePath hooks = (.ok (), made) ∧
        (h' = made ∧ made.LeavesAlone hooks force r ∨
          made.pathExists (hooks.child Hook.name) = false ∧
            made.writeHook (hooks.child Hook.name) none = (r, h') ∨
          force = true ∧ made.isOwnHook (hooks.child Hook.name) = .ok false ∧ ∃ moved,
            made.rename (hooks.child Hook.name) (hooks.child Hook.backupName) = .ok moved ∧
              moved.writeHook (hooks.child Hook.name) (some (hooks.child Hook.backupName)) =
                (r, h')) := by
  unfold installHook at hi
  rcases hmake : h.makePath hooks with ⟨e | ⟨⟩, made⟩
  · rw [hmake] at hi
    obtain ⟨rfl, rfl⟩ := Prod.mk.inj hi
    exact .inl ⟨e, rfl, rfl⟩
  · rw [hmake] at hi
    refine .inr ⟨made, rfl, ?_⟩
    simp only [installIn] at hi
    split at hi
    · split at hi
      · next hread =>
        obtain ⟨rfl, rfl⟩ := Prod.mk.inj hi
        exact .inl ⟨rfl, .unreadable hread⟩
      · next hread =>
        obtain ⟨rfl, rfl⟩ := Prod.mk.inj hi
        exact .inl ⟨rfl, .own hread⟩
      · next hread =>
        split at hi
        · next hforce =>
          obtain ⟨rfl, rfl⟩ := Prod.mk.inj hi
          exact .inl ⟨rfl, .foreign hread (by simpa using hforce)⟩
        · next hforce =>
          have hforced : force = true := by simpa using hforce
          split at hi
          · next hmoving =>
            obtain ⟨rfl, rfl⟩ := Prod.mk.inj hi
            exact .inl ⟨rfl, .stuck hread hforced hmoving⟩
          · next moved hmoved => exact .inr (.inr ⟨hforced, hread, moved, hmoved, hi⟩)
    · next hexists => exact .inr (.inl ⟨by simpa using hexists, hi⟩)

/-- An installation makes directories only, or writes the script where the hook was absent, or moves
a foreign hook first. -/
theorem installHook_cases {force : Bool} {r : Except Failure Installation}
    (hi : h.installHook hooks force = (r, h')) :
    (Grows h h' ∧ ∀ path b, r ≠ .ok (.installed path b)) ∨
      ∃ made, h.makePath hooks = (.ok (), made) ∧
        (made.pathExists (hooks.child Hook.name) = false ∧
            made.writeHook (hooks.child Hook.name) none = (r, h') ∨
          force = true ∧ made.isOwnHook (hooks.child Hook.name) = .ok false ∧ ∃ moved,
            made.rename (hooks.child Hook.name) (hooks.child Hook.backupName) = .ok moved ∧
              moved.writeHook (hooks.child Hook.name) (some (hooks.child Hook.backupName)) =
                (r, h')) := by
  have hgrows := makePath_grows h hooks
  rcases installHook_outcomes hi with ⟨e, hmake, rfl⟩ | ⟨made, hmake, ⟨rfl, halone⟩ | hwritten⟩
  · rw [hmake] at hgrows
    exact .inl ⟨hgrows, by simp⟩
  · rw [hmake] at hgrows
    exact .inl ⟨hgrows, by cases halone <;> simp⟩
  · exact .inr ⟨made, hmake, hwritten⟩

/-- An installation that is reported has written the script, or has found one with the marker. -/
theorem installHook_ok {force : Bool} {i : Installation}
    (hi : h.installHook hooks force = (.ok i, h')) :
    (∃ b, i = .installed (hooks.child Hook.name) b) ∧
        (∃ node, h'.entry (hooks.child Hook.name) =
          .ok (.file node scriptOctets Entry.scriptMode)) ∨
      i = .already (hooks.child Hook.name) ∧ h.makePath hooks = (.ok (), h') ∧
        h'.isOwnHook (hooks.child Hook.name) = .ok true := by
  rcases installHook_outcomes hi with
    ⟨e, -, hr⟩ | ⟨made, hmake, ⟨rfl, halone⟩ | ⟨-, hw⟩ | ⟨-, -, moved, -, hw⟩⟩
  · cases hr
  · cases halone with
    | own read => exact .inr ⟨rfl, hmake, read⟩
  · obtain ⟨hr, he⟩ := writeHook_ok hw
    exact .inl ⟨⟨_, hr⟩, he⟩
  · obtain ⟨hr, he⟩ := writeHook_ok hw
    exact .inl ⟨⟨_, hr⟩, he⟩

/-- A removal does nothing, or takes away a hook with the marker. -/
theorem uninstallHook_cases {r : Except Failure Removal} (hu : h.uninstallHook hooks = (r, h')) :
    h' = h ∧ (∀ path b, r ≠ .ok (.removed path b)) ∨
      h.isOwnHook (hooks.child Hook.name) = .ok true ∧
        h.removeFile (hooks.child Hook.name) = .ok h' := by
  simp only [uninstallHook] at hu
  split at hu
  · obtain ⟨rfl, rfl⟩ := Prod.mk.inj hu
    exact .inl ⟨rfl, by simp⟩
  · split at hu
    · obtain ⟨rfl, rfl⟩ := Prod.mk.inj hu
      exact .inl ⟨rfl, by simp⟩
    · obtain ⟨rfl, rfl⟩ := Prod.mk.inj hu
      exact .inl ⟨rfl, by simp⟩
    · next hown =>
      split at hu
      · obtain ⟨rfl, rfl⟩ := Prod.mk.inj hu
        exact .inl ⟨rfl, by simp⟩
      · next left hleft =>
        obtain ⟨-, rfl⟩ := Prod.mk.inj hu
        exact .inr ⟨hown, hleft⟩

/-- A hook that can be read and is renamed moves to the backup in its directory, unless both are
names of one file already. -/
theorem moved_of_rename {own : Bool} (ho : h.isOwnHook (hooks.child Hook.name) = .ok own)
    (hr : h.rename (hooks.child Hook.name) (hooks.child Hook.backupName) = .ok h') :
    ∃ place, h.NamesAt hooks place ∧
      ((∃ e, Moved place Hook.name Hook.backupName e h h') ∨
        h' = h ∧ h.OneFile place Hook.name Hook.backupName) := by
  obtain ⟨node, c, m, he, -⟩ := isOwnHook_eq_ok_iff.1 ho
  obtain ⟨place, e, hn, hd, hfree⟩ := exists_namesAt_of_entry_file isName_name he
  refine ⟨place, hn, ?_⟩
  rcases rename_ok hr (hn _ isName_name) (hn _ isName_backupName) (by decide) hd hfree with
    hmoved | hone
  · exact .inl ⟨e, hmoved⟩
  · exact .inr hone

/-- **After the move the script is written**, when the names in the directory stay where they are.
What was moved is the backup. -/
theorem written_of_moved {e : Entry} {moved : Host}
    (hm : Moved place Hook.name Hook.backupName e h moved) (hn : moved.NamesAt hooks place)
    (b : Option Path) :
    ∃ made, moved.writeHook (hooks.child Hook.name) b =
        (.ok (.installed (hooks.child Hook.name) b), made) ∧
      made.NamesAt hooks place ∧
      SameBut [place ++ [Hook.name], place ++ [Hook.backupName]] h made ∧
      made.tree.get? (place ++ [Hook.backupName]) = some e ∧
      ∃ node, made.tree.get? (place ++ [Hook.name]) =
        some (.file node scriptOctets Entry.scriptMode) := by
  obtain ⟨u, hu⟩ := Tree.exists_dir_of_get?_append hm.before (by simp)
  obtain ⟨made, hw, hsame, hthere⟩ :=
    writeHook_of_absent isName_name hn (hm.same.get?_dir hu) hm.gone b
  refine ⟨made, hw, ?_, ?_, ?_, hthere⟩
  · refine hn.sameBut hsame fun q n node g hmem hg => ?_
    rw [List.mem_singleton.1 hmem, hm.gone] at hg
    cases hg
  · exact (hm.same.trans hsame).mono (by simp) hm.same.free
  · have hfree : ∀ u, e ≠ .dir u := fun u he => hm.same.free _ (by simp) u (he ▸ hm.before)
    rw [← Tree.outline?_eq_some_iff hfree, hsame.outline _ (by simpa using by decide),
      Tree.outline?_eq_some_iff hfree]
    exact hm.there

/-- A hook that can be read and is removed is gone, and the names in its directory stay: it was no
way to anything. -/
theorem removed_of_removeFile {own : Bool}
    (ho : h.isOwnHook (hooks.child Hook.name) = .ok own)
    (hr : h.removeFile (hooks.child Hook.name) = .ok h') :
    ∃ place, h.NamesAt hooks place ∧ h'.NamesAt hooks place ∧
      SameBut [place ++ [Hook.name]] h h' ∧ h'.tree.get? (place ++ [Hook.name]) = none := by
  obtain ⟨node, c, m, he, -⟩ := isOwnHook_eq_ok_iff.1 ho
  obtain ⟨place, e, hn, hd, -⟩ := exists_namesAt_of_entry_file isName_name he
  obtain ⟨d, hl, hsame, hgone⟩ := removeFile_ok hr
  obtain rfl : place ++ [Hook.name] = d := Except.ok.inj ((hn _ isName_name).symm.trans hl)
  obtain ⟨f, hf, hget⟩ := entry_eq_ok_iff.1 he
  obtain ⟨k, -, hleads⟩ := hn.leads isName_name hf
  have hn' : h'.NamesAt hooks place := by
    refine hn.sameBut hsame fun q n node g hmem _ => ?_
    obtain ⟨rfl, rfl⟩ := List.append_singleton_inj.1 (List.mem_singleton.1 hmem)
    exact blocked_of_leads_file hleads hget (Tree.exists_dir_of_get?_append hd (by simp)) 40
  exact ⟨place, hn, hn', hsame, hgone⟩

end Host

/-! ## Runs -/

/-- A command about the hook. -/
inductive HookCommand where
  | install (force : Bool)
  | uninstall
deriving DecidableEq, Repr

/-- What a command answers. -/
inductive HookReport where
  | install (result : Except Failure Installation)
  | uninstall (result : Except Failure Removal)
deriving DecidableEq

namespace Host

/-- Carries out a command. -/
def perform (h : Host) (hooks : Path) : HookCommand → HookReport × Host
  | .install force => ((.install (h.installHook hooks force).1), (h.installHook hooks force).2)
  | .uninstall => ((.uninstall (h.uninstallHook hooks).1), (h.uninstallHook hooks).2)

/-- The host after some commands. -/
def performAll (h : Host) (hooks : Path) (commands : List HookCommand) : Host :=
  commands.foldl (fun h c => (h.perform hooks c).2) h

variable (h : Host) (hooks : Path)

@[simp] theorem performAll_nil : h.performAll hooks [] = h := rfl

theorem performAll_append (before after : List HookCommand) :
    h.performAll hooks (before ++ after) = (h.performAll hooks before).performAll hooks after :=
  List.foldl_append

theorem performAll_concat (before : List HookCommand) (c : HookCommand) :
    h.performAll hooks (before ++ [c]) = ((h.performAll hooks before).perform hooks c).2 := by
  rw [performAll_append]
  rfl

/-- One of the commands, carried out in turn, gets an answer of this kind. -/
def Answered (h : Host) (hooks : Path) (commands : List HookCommand)
    (kind : HookCommand → HookReport → Prop) : Prop :=
  ∃ before c, before ++ [c] <+: commands ∧ kind c ((h.performAll hooks before).perform hooks c).1

variable {h hooks} {kind : HookCommand → HookReport → Prop}

theorem not_answered_nil : ¬ h.Answered hooks [] kind := by
  rintro ⟨before, c, hprefix, -⟩
  simp at hprefix

theorem answered_concat_iff {before : List HookCommand} {c : HookCommand} :
    h.Answered hooks (before ++ [c]) kind ↔
      h.Answered hooks before kind ∨ kind c ((h.performAll hooks before).perform hooks c).1 := by
  constructor
  · rintro ⟨front, c', hprefix, hkind⟩
    rcases List.prefix_concat_iff.1 hprefix with heq | hprefix
    · obtain ⟨rfl, rfl⟩ := List.append_singleton_inj.1 heq
      exact .inr hkind
    · exact .inl ⟨front, c', hprefix, hkind⟩
  · rintro (⟨front, c', hprefix, hkind⟩ | hkind)
    · exact ⟨front, c', hprefix.trans (List.prefix_append _ _), hkind⟩
    · exact ⟨before, c, List.prefix_rfl, hkind⟩

end Host

end CommitGate

import CommitGate.Proofs.HookInstallation
import CommitGate.Proofs.MakePath

/-!
# Commands without success

A command about the hook that does not succeed leaves the files alone. An installation may have made
the directory of the hooks by then, and those above it. Once the foreign hook has been moved nothing
can fail any more: its name is free, and the way to its directory is the same as before. Where the
hook and the backup are two names of one file nothing is moved, and that file can be written.

**Limits (two cases, `hook_lost`).** The way to the directory of the hooks may go through a link in
that very directory which has the name of the backup. A forced installation replaces the link, and
then the script cannot be written. And a path with a `..` may lead to a hook once a directory is
made that the path leaves again.

Results:

* `namesAt_of_moved`: the names in the directory stay where they are when the hook is moved.
* `installHook_error`: an installation that fails has made directories only.
* `installHook_refused`: so has one that finds a hook and lets it be, and hardly ever those.
* `unsuccessful_commands`: what each command leaves behind that does not succeed.
-/

namespace CommitGate

open Text (Octets octets)

namespace Host

open Hook (isName_name)

variable {h h' made moved : Host} {hooks : Path} {place : List RawText} {e : Entry} {node : Nat}
  {c : Octets} {m : Nat}

/-! ## After the move -/

/-- The host without what has the name of the backup among the names at the place. -/
def withoutBackup (h : Host) (place : List RawText) : Host :=
  { h with tree := h.tree.erase (place ++ [Hook.backupName]) }

/-- The way to the directory of the hooks goes through a link in it that has the name of the
backup. -/
def OverBackup (h : Host) (hooks : Path) : Prop :=
  ∃ place node g, h.NamesAt hooks place ∧
    h.tree.get? (place ++ [Hook.backupName]) = some (.link node g) ∧
    ¬ (h.withoutBackup place).NamesAt hooks place

/-- A way that goes through no link with the name of the backup does without the backup. -/
theorem namesAt_withoutBackup (hn : h.NamesAt hooks place)
    (hfree : ∀ u, h.tree.get? (place ++ [Hook.backupName]) ≠ some (.dir u))
    (hover : ¬ h.OverBackup hooks) : (h.withoutBackup place).NamesAt hooks place := by
  by_cases hlink : ∃ k g, h.tree.get? (place ++ [Hook.backupName]) = some (.link k g)
  · obtain ⟨k, g, hg⟩ := hlink
    by_contra hnot
    exact hover ⟨place, k, g, hn, hg, hnot⟩
  · refine hn.sameBut (sameBut_erase hfree) fun q n k g hmem hg => ?_
    rw [List.mem_singleton.1 hmem] at hg
    exact absurd ⟨k, g, hg⟩ hlink

/-- **The names in the directory stay where they are** when a hook that leads to a file is moved,
unless the way to the directory goes through the name it is moved to. -/
theorem namesAt_of_moved (hm : Moved place Hook.name Hook.backupName e made moved)
    (hn : made.NamesAt hooks place)
    (hfile : made.entry (hooks.child Hook.name) = .ok (.file node c m))
    (hover : ¬ made.OverBackup hooks) : moved.NamesAt hooks place := by
  have hfree : ∀ u, made.tree.get? (place ++ [Hook.backupName]) ≠ some (.dir u) :=
    hm.same.free _ (by simp)
  have herased : SameBut [place ++ [Hook.backupName]] made (made.withoutBackup place) :=
    sameBut_erase hfree
  have hgone : (made.withoutBackup place).tree.get? (place ++ [Hook.backupName]) = none :=
    get?_erase hfree
  have hold : ∀ {q e}, (made.withoutBackup place).tree.outline? q = some e →
      made.tree.outline? q = some e := by
    intro q e hq
    rw [← hq, herased.outline q]
    rintro hmem
    rw [List.mem_singleton.1 hmem, Tree.outline?_eq_none_iff.2 hgone] at hq
    cases hq
  -- the hook leads to a file, so nothing is reached through it, with the backup or without
  obtain ⟨f, hf, hget⟩ := entry_eq_ok_iff.1 hfile
  obtain ⟨k, -, hleads⟩ := hn.leads isName_name hf
  have hplace := Tree.exists_dir_of_get?_append hm.before (by simp)
  have hblocked : Blocked (made.withoutBackup place).tree 40 place Hook.name := by
    refine (blocked_of_leads_file hleads hget hplace 40).fewer (fun q u hu => ?_) fun q k g hg => ?_
    · exact Tree.outline?_eq_dir_iff.1 (hold (Tree.outline?_eq_dir_iff.2 ⟨u, hu⟩))
    · exact Tree.outline?_eq_link_iff.1 (hold (Tree.outline?_eq_link_iff.2 hg))
  have hrest : SameBut [place ++ [Hook.name], place ++ [Hook.backupName]]
      (made.withoutBackup place) moved := by
    refine ⟨hm.same.directory, fun q hq => ?_, fun q hq u hu => ?_⟩
    · rw [hm.same.outline q hq, herased.outline q fun hmem => hq (by simp_all)]
    · obtain ⟨v, hv⟩ := Tree.outline?_eq_dir_iff.1 (hold (Tree.outline?_eq_dir_iff.2 ⟨u, hu⟩))
      exact hm.same.free q hq v hv
  refine (namesAt_withoutBackup hn hfree hover).sameBut hrest fun q n k g hmem hg => ?_
  rcases List.mem_pair.1 hmem with heq | heq
  · obtain ⟨rfl, rfl⟩ := List.append_singleton_inj.1 heq
    exact hblocked
  · rw [heq, hgone] at hg
    cases hg

/-- **Nothing fails after the move.** -/
theorem writeHook_of_moved {b : Option Path} {f : Failure}
    (hm : Moved place Hook.name Hook.backupName e made moved) (hn : made.NamesAt hooks place)
    (hfile : made.entry (hooks.child Hook.name) = .ok (.file node c m))
    (hover : ¬ made.OverBackup hooks) :
    moved.writeHook (hooks.child Hook.name) b ≠ (.error f, h') := by
  obtain ⟨written, hw, -⟩ := written_of_moved hm (namesAt_of_moved hm hn hfile hover) b
  rw [hw]
  simp

/-! ## Installations -/

/-- **An installation that fails has made directories only**, on the way to that of the hooks. -/
theorem installHook_error {force : Bool} {f : Failure}
    (hi : h.installHook hooks force = (.error f, h'))
    (hover : force = true → ¬ (h.makePath hooks).2.OverBackup hooks) :
    MadeFor hooks.ancestors h h' := by
  have hmadeFor := makePath_madeFor h hooks
  rcases installHook_outcomes hi with
    ⟨fault, hmake, -⟩ | ⟨made, hmake, ⟨rfl, -⟩ | ⟨-, hw⟩ | ⟨hforced, hforeign, moved, hr, hw⟩⟩
  · rwa [hmake] at hmadeFor
  · rwa [hmake] at hmadeFor
  · rw [hmake] at hmadeFor
    exact hmadeFor.trans (.of_sameBut _ (writeHook_error hw))
  · rw [hmake] at hover
    obtain ⟨node, c, m, hfile, -⟩ := isOwnHook_eq_ok_iff.1 hforeign
    obtain ⟨place, hn, ⟨e, hm⟩ | ⟨rfl, -⟩⟩ := moved_of_rename hforeign hr
    · exact absurd hw (writeHook_of_moved hm hn hfile (hover hforced))
    · -- with two names of one file nothing was moved, and the file is written over
      rw [writeHook_of_file hfile] at hw
      cases (Prod.mk.inj hw).1

/-- Where the path led somewhere already, no directory is made. -/
theorem makePath_of_pathExists (hexists : h.pathExists hooks = true) :
    (h.makePath hooks).2 = h := by
  obtain ⟨above, habove⟩ := exists_ancestorsUpTo hooks.spelling.octets.length hooks
  obtain ⟨e, he⟩ := pathExists_iff.1 hexists
  rw [makePath, Path.ancestors, habove, makeDirectories, makeDirectory_of_entry he]
  split <;> rfl

/-- An installation answers that a hook is there because it has found one. -/
theorem found_of_refused {force : Bool} {r : Except Failure Installation} {path : Path}
    (hi : h.installHook hooks force = (r, h'))
    (hr : r = .error (.hookExists path) ∨ r = .ok (.already path)) :
    h.makePath hooks = (.ok (), h') ∧ ∃ own, h'.isOwnHook (hooks.child Hook.name) = .ok own := by
  have hnot : ∀ {host : Host} {b : Option Path},
      host.writeHook (hooks.child Hook.name) b ≠ (r, h') := by
    intro host b hw
    rcases host.writeHook_answer (hooks.child Hook.name) b with ha | ⟨text, fault, ha⟩ <;>
      rw [hw] at ha <;> rcases hr with rfl | rfl <;> cases ha
  rcases installHook_outcomes hi with
    ⟨fault, -, rfl⟩ | ⟨made, hmake, ⟨rfl, halone⟩ | ⟨-, hw⟩ | ⟨-, -, moved, -, hw⟩⟩
  · rcases hr with hr | hr <;> cases hr
  · cases halone with
    | unreadable read =>
      obtain ⟨fault, rfl⟩ := fault_of_isOwnHook read
      rcases hr with hr | hr <;> cases hr
    | own read => exact ⟨hmake, _, read⟩
    | foreign read _ => exact ⟨hmake, _, read⟩
    | stuck _ _ _ => rcases hr with hr | hr <;> cases hr
  · exact absurd hw hnot
  · exact absurd hw hnot

/-- **An installation that finds a hook and lets it be has made directories only.** It has made none
where the path of the hooks led somewhere already or has no `..`. -/
theorem installHook_refused {force : Bool} {r : Except Failure Installation} {path : Path}
    (hi : h.installHook hooks force = (r, h'))
    (hr : r = .error (.hookExists path) ∨ r = .ok (.already path)) :
    MadeFor hooks.ancestors h h' ∧ (h.pathExists hooks = true ∨ ¬ hooks.Climbs → h' = h) := by
  obtain ⟨hmake, own, hfound⟩ := found_of_refused hi hr
  have hmadeFor := makePath_madeFor h hooks
  rw [hmake] at hmadeFor
  refine ⟨hmadeFor, ?_⟩
  rintro (hexists | hclimbs)
  · have hsame := makePath_of_pathExists hexists
    rwa [hmake] at hsame
  · -- the hook was there before, and so was the directory that holds it
    obtain ⟨node, c, m, hfile, -⟩ := isOwnHook_eq_ok_iff.1 hfound
    obtain ⟨place, e, hn, hd, hfree⟩ := exists_namesAt_of_entry_file isName_name hfile
    have hold := hmadeFor.get?_of_made hfree hd
    exact makePath_eq_self hclimbs hmake hn (Tree.exists_dir_of_get?_append hold (by simp))

/-! ## All commands -/

/-- A removal that is reported has taken away the hook, and nothing else. -/
theorem uninstallHook_removed {path : Path} {b : Option Path}
    (hu : h.uninstallHook hooks = (.ok (.removed path b), h')) :
    ∃ place, h.NamesAt hooks place ∧ SameBut [place ++ [Hook.name]] h h' ∧
      h'.ownEntry (hooks.child Hook.name) = .error .notFound := by
  rcases uninstallHook_cases hu with ⟨-, hnot⟩ | ⟨hown, hremove⟩
  · exact absurd rfl (hnot path b)
  · obtain ⟨place, hn, hn', hsame, hgone⟩ := removed_of_removeFile hown hremove
    exact ⟨place, hn, hsame, ownEntry_of_absent hn' hgone⟩

/-- **Commands without success leave the files alone.** An installation that fails keeps all that
stood and makes directories on the way to that of the hooks at most, unless it is forced and the way
goes over the backup. One that answers that a hook is there does so too, and changes nothing where
the path of the hooks led somewhere before or has no `..`. A removal that takes nothing away changes
nothing, and one that is reported has taken away the hook alone. -/
theorem unsuccessful_commands (h : Host) (hooks : Path) :
    (∀ force f h', h.installHook hooks force = (.error f, h') →
      (force = true → ¬ (h.makePath hooks).2.OverBackup hooks) →
      MadeFor hooks.ancestors h h') ∧
    (∀ force r path h', h.installHook hooks force = (r, h') →
      r = .error (.hookExists path) ∨ r = .ok (.already path) →
      MadeFor hooks.ancestors h h' ∧ (h.pathExists hooks = true ∨ ¬ hooks.Climbs → h' = h)) ∧
    (∀ r h', h.uninstallHook hooks = (r, h') → (∀ path b, r ≠ .ok (.removed path b)) → h' = h) ∧
    (∀ path b h', h.uninstallHook hooks = (.ok (.removed path b), h') →
      ∃ place, h.NamesAt hooks place ∧ SameBut [place ++ [Hook.name]] h h' ∧
        h'.ownEntry (hooks.child Hook.name) = .error .notFound) := by
  refine ⟨fun force f h' => installHook_error, fun force r path h' => installHook_refused,
    fun r h' hu hnot => ?_, fun path b h' => uninstallHook_removed⟩
  rcases uninstallHook_cases hu with ⟨rfl, -⟩ | ⟨hown, hremove⟩
  · rfl
  · exact absurd (uninstallHook_of_own hown hremove) fun hu' =>
      hnot _ _ (Prod.mk.inj (hu.symm.trans hu')).1

/-- A foreign hook that cannot be moved, as its backup would replace a directory. -/
def stuckProject : Host :=
  ⟨.dir "hooks" (.file "pre-commit" 0 (octets "make\n") Entry.plainMode
    (.dir "pre-commit.bak" .empty .empty)) .empty, [], []⟩

/-- The installations fail and the removal declines, and all leave the hook as it is. Where the hook
is this program's, it is gone after its removal. -/
theorem unsuccessful_commands_stuckProject :
    (∃ f h', stuckProject.installHook ⟨"hooks"⟩ true = (.error f, h') ∧
      h'.tree.get? ["hooks", "pre-commit"] = some (.file 0 (octets "make\n") Entry.plainMode)) ∧
    (stuckProject.installHook ⟨"hooks"⟩ false).2 = stuckProject ∧
    (stuckProject.uninstallHook ⟨"hooks"⟩).2 = stuckProject ∧
    ∃ path b h', forcedProject.uninstallHook ⟨"hooks"⟩ = (.ok (.removed path b), h') ∧
      h'.ownEntry ⟨"hooks/pre-commit"⟩ = .error .notFound := by
  obtain ⟨hfails, hrefuses, hkeeps, -⟩ := unsuccessful_commands stuckProject ⟨"hooks"⟩
  obtain ⟨-, -, -, hremoves⟩ := unsuccessful_commands forcedProject ⟨"hooks"⟩
  have hmake : (stuckProject.makePath ⟨"hooks"⟩).2 = stuckProject := by decide +kernel
  have hover : ¬ stuckProject.OverBackup ⟨"hooks"⟩ := by
    rintro ⟨place, k, g, hn, hlink, -⟩
    have hhooks : IsName "hooks" := by decide
    obtain rfl : place = ["hooks"] := (namesAt_of_name hhooks rfl).eq hn
    cases hlink
  have hi : stuckProject.installHook ⟨"hooks"⟩ true =
      (.error (.ofFault "backup hook" .isDirectory), stuckProject) := by decide +kernel
  have hnames : forcedProject.NamesAt ⟨"hooks"⟩ ["hooks"] := namesAt_of_name (by decide) rfl
  have hfile : forcedProject.tree.get? [("hooks" : RawText), Hook.name] =
      some (.file 1 Hook.scriptOctets Entry.scriptMode) := rfl
  obtain ⟨left, hremove⟩ := removeFile_of_not_dir (hnames _ isName_name) hfile (by simp)
  have hu := uninstallHook_of_own (isOwnHook_of_file hnames hfile Hook.isText_script) hremove
  refine ⟨⟨_, _, hi, ?_⟩, ?_, ?_, ⟨_, _, _, hu, ?_⟩⟩
  · exact (hfails true _ _ hi fun _ => hmake.symm ▸ hover).get?_file rfl
  · exact (hrefuses false _ ⟨"hooks/pre-commit"⟩ _ rfl (.inl (by decide +kernel))).2
      (.inr (by decide))
  · have hforeign : stuckProject.uninstallHook ⟨"hooks"⟩ = (.ok (.foreign ⟨"hooks/pre-commit"⟩),
        (stuckProject.uninstallHook ⟨"hooks"⟩).2) := by decide +kernel
    exact hkeeps _ _ hforeign (by simp)
  · obtain ⟨-, -, -, hgone⟩ := hremoves _ _ _ hu
    exact hgone

/-- A foreign hook, and no directory `new` beside the one that holds it. -/
def climbingProject : Host :=
  ⟨.dir "hk" (.file "pre-commit" 0 (octets "make\n") Entry.plainMode .empty) .empty, [], []⟩

/-- A foreign hook, and a link with the name of its backup that leads to a directory. -/
def roundaboutProject : Host :=
  ⟨.dir "hk" (.file "pre-commit" 0 (octets "make\n") Entry.plainMode
    (.link "pre-commit.bak" 1 "d" (.dir "d" .empty .empty))) .empty, [], []⟩

/-- **Commands without success change files.** On the way to a hook that is there a directory is
made first. And a forced installation loses its way when that goes over the backup: it fails when
the hook has been moved already. -/
theorem hook_lost :
    (climbingProject.installHook ⟨"new/../hk"⟩ false).1 =
        .error (.hookExists ⟨"new/../hk/pre-commit"⟩) ∧
      climbingProject.tree.get? ["new"] = none ∧
      (climbingProject.installHook ⟨"new/../hk"⟩ false).2.tree.get? ["new"] =
        some (.dir .empty) ∧
      (roundaboutProject.installHook ⟨"hk/pre-commit.bak/.."⟩ true).1 =
        .error (.ofFault "write hook" .notDirectory) ∧
      roundaboutProject.tree.get? ["hk", "pre-commit"] =
        some (.file 0 (octets "make\n") Entry.plainMode) ∧
      (roundaboutProject.installHook ⟨"hk/pre-commit.bak/.."⟩ true).2.tree.get?
        ["hk", "pre-commit"] = none := by
  decide +kernel

end Host

end CommitGate

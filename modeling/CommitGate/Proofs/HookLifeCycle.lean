import CommitGate.Proofs.Hook
import Mathlib.Data.List.Induction

/-!
# The life cycle of the hook

A foreign hook stays as it is until an installation is forced, and is the backup from there on. From
the first installation on, the hook is absent or the executable script: each command then either
leaves it so or turns the one into the other, and touches nothing else, so that the backup is kept
for ever.

**Deviation from the purpose.** A foreign hook is to be renamed before the script is written. Where
the name of the backup is another name of the hook already, the renaming does nothing, and the
script is written over the hook under both names (`hook_written_over`).

Results:

* `settled_of_installed`, `Settled.perform`: an installation settles the hook, and every command
  keeps it settled and changes its place only.
* `Settled.answers`: what the commands answer then.
* `installHook_forced`: what a forced installation does to a foreign hook.
* `life_cycle`: the answers and the files over any run of commands.
-/

namespace CommitGate

open Text (Octets)

namespace Host

open Hook (IsText scriptOctets isName_name isName_backupName isText_script)

variable {h h' : Host} {hooks : Path} {place : List RawText} {node : Nat}
  {content : Octets} {mode : Nat}

/-! ## The settled hook -/

/-- The hook at the place is absent, or it is the executable script. -/
structure Settled (h : Host) (hooks : Path) (place : List RawText) : Prop where
  names : h.NamesAt hooks place
  directory : ∃ u, h.tree.get? place = some (.dir u)
  hook : h.tree.get? (place ++ [Hook.name]) = none ∨
    ∃ node, h.entry (hooks.child Hook.name) = .ok (.file node scriptOctets Entry.scriptMode)

/-- A hook that leads to the script is settled. -/
theorem settled_of_entry
    (he : h.entry (hooks.child Hook.name) = .ok (.file node scriptOctets Entry.scriptMode)) :
    ∃ place, h.Settled hooks place := by
  obtain ⟨place, e, hn, hd, -⟩ := exists_namesAt_of_entry_file isName_name he
  exact ⟨place, hn, Tree.exists_dir_of_get?_append hd (by simp), .inr ⟨_, he⟩⟩

/-- **An installation settles the hook**, whatever was there before. -/
theorem settled_of_installed {force : Bool} {path : Path} {b : Option Path}
    (hi : h.installHook hooks force = (.ok (.installed path b), h')) :
    ∃ place, h'.Settled hooks place := by
  rcases installHook_ok hi with ⟨-, node, he⟩ | ⟨hr, -⟩
  · exact settled_of_entry he
  · cases hr

namespace Settled

/-- What stands at the place of the hook is a file or a link, if anything. -/
theorem free (hs : h.Settled hooks place) (u : Tree) :
    h.tree.get? (place ++ [Hook.name]) ≠ some (.dir u) := by
  intro hu
  rcases hs.hook with habsent | ⟨node, he⟩
  · rw [habsent] at hu
    cases hu
  · have hl := hs.names.locate isName_name (by simp [hu]) true
    have hdir := entry_eq_ok_iff.2 ⟨_, hl, hu⟩
    rw [he] at hdir
    cases hdir

end Settled

/-! ## What the commands answer -/

/-- The hook is the executable script: it is not installed again, and can be removed. -/
structure HookPresent (h : Host) (hooks : Path) : Prop where
  entry : ∃ node, h.entry (hooks.child Hook.name) =
    .ok (.file node scriptOctets Entry.scriptMode)
  install : ∀ force, h.perform hooks (.install force) =
    (.install (.ok (.already (hooks.child Hook.name))), h)
  uninstall : ∃ left, h.perform hooks .uninstall =
      (.uninstall (.ok (.removed (hooks.child Hook.name)
        (if left.pathExists (hooks.child Hook.backupName) then some (hooks.child Hook.backupName)
          else none))), left) ∧
    left.ownEntry (hooks.child Hook.name) = .error .notFound

/-- There is no hook: it can be installed, and nothing is removed. -/
structure HookAbsent (h : Host) (hooks : Path) : Prop where
  entry : h.ownEntry (hooks.child Hook.name) = .error .notFound
  install : ∀ force, ∃ made, h.perform hooks (.install force) =
      (.install (.ok (.installed (hooks.child Hook.name) none)), made) ∧
    ∃ node, made.entry (hooks.child Hook.name) =
      .ok (.file node scriptOctets Entry.scriptMode)
  uninstall : h.perform hooks .uninstall =
    (.uninstall (.ok (.absent (hooks.child Hook.name))), h)

/-- The hook is foreign: it is left alone, unless an installation is forced. -/
structure HookForeign (h : Host) (hooks : Path) : Prop where
  install : h.perform hooks (.install false) =
    (.install (.error (.hookExists (hooks.child Hook.name))), h)
  uninstall : h.perform hooks .uninstall =
    (.uninstall (.ok (.foreign (hooks.child Hook.name))), h)

theorem pathExists_of_absent (hn : h.NamesAt hooks place)
    (habsent : h.tree.get? (place ++ [Hook.name]) = none) :
    h.pathExists (hooks.child Hook.name) = false := by
  have hl := hn.locate isName_name (by simp [habsent]) true
  rw [Bool.eq_false_iff]
  intro hexists
  obtain ⟨e, he⟩ := pathExists_iff.1 hexists
  obtain ⟨d, hd, hget⟩ := entry_eq_ok_iff.1 he
  obtain rfl : place ++ [Hook.name] = d := Except.ok.inj (hl.symm.trans hd)
  rw [habsent] at hget
  cases hget

theorem ownEntry_of_absent (hn : h.NamesAt hooks place)
    (habsent : h.tree.get? (place ++ [Hook.name]) = none) :
    h.ownEntry (hooks.child Hook.name) = .error .notFound :=
  (hn.ownEntry_eq_notFound_iff isName_name).2 habsent

namespace Settled

/-- The script is removed, and nothing else. A link to it is no way to anything, so the directory
is where it was. -/
theorem uninstall_of_script (hs : h.Settled hooks place)
    (he : h.entry (hooks.child Hook.name) = .ok (.file node scriptOctets Entry.scriptMode)) :
    ∃ left, h.uninstallHook hooks = (.ok (.removed (hooks.child Hook.name)
        (if left.pathExists (hooks.child Hook.backupName) then some (hooks.child Hook.backupName)
          else none)), left) ∧
      left.Settled hooks place ∧ SameBut [place ++ [Hook.name]] h left ∧
      left.tree.get? (place ++ [Hook.name]) = none := by
  have hown := isOwnHook_of_script he
  obtain ⟨place', e, hn', hd, hfree⟩ := exists_namesAt_of_entry_file isName_name he
  obtain ⟨left, hremove⟩ := removeFile_of_not_dir (hn' _ isName_name) hd hfree
  obtain ⟨at', hat, hn, hsame, hgone⟩ := removed_of_removeFile hown hremove
  obtain rfl : at' = place := hs.names.eq hat
  obtain ⟨u, hu⟩ := hs.directory
  exact ⟨left, uninstallHook_of_own hown hremove, ⟨hn, hsame.get?_dir hu, .inl hgone⟩, hsame, hgone⟩

/-- The script is installed where there is no hook, and nothing else. -/
theorem install_of_absent (hs : h.Settled hooks place)
    (habsent : h.tree.get? (place ++ [Hook.name]) = none) (force : Bool) :
    ∃ made, h.installHook hooks force =
        (.ok (.installed (hooks.child Hook.name) none), made) ∧
      made.Settled hooks place ∧ SameBut [place ++ [Hook.name]] h made ∧
      ∃ node, made.entry (hooks.child Hook.name) =
        .ok (.file node scriptOctets Entry.scriptMode) := by
  obtain ⟨made, hw, hsame, node, hthere⟩ :=
    writeHook_of_absent isName_name hs.names hs.directory habsent none
  have hi : h.installHook hooks force = (.ok (.installed (hooks.child Hook.name) none), made) := by
    rw [installHook_of_absent (hs.names.makePath hs.directory)
      (pathExists_of_absent hs.names habsent), hw]
  have hn : made.NamesAt hooks place := by
    refine hs.names.sameBut hsame fun q n node g hmem hg => ?_
    rw [List.mem_singleton.1 hmem, habsent] at hg
    cases hg
  have he : made.entry (hooks.child Hook.name) =
      .ok (.file node scriptOctets Entry.scriptMode) :=
    entry_eq_ok_iff.2 ⟨_, hn.locate isName_name (by simp [hthere]) true, hthere⟩
  obtain ⟨u, hu⟩ := hs.directory
  exact ⟨made, hi, ⟨hn, hsame.get?_dir hu, .inr ⟨node, he⟩⟩, hsame, node, he⟩

/-- **A settled hook is present or absent**, and the commands answer accordingly. -/
theorem answers (hs : h.Settled hooks place) : h.HookPresent hooks ∨ h.HookAbsent hooks := by
  rcases hs.hook with habsent | ⟨node, he⟩
  · right
    have hexists := pathExists_of_absent hs.names habsent
    refine ⟨ownEntry_of_absent hs.names habsent, fun force => ?_, ?_⟩
    · obtain ⟨made, hi, -, -, he⟩ := hs.install_of_absent habsent force
      exact ⟨made, by simp [perform, hi], he⟩
    · simp [perform, uninstallHook_of_absent hexists]
  · left
    refine ⟨⟨node, he⟩, fun force => ?_, ?_⟩
    · have hi : h.installHook hooks force = (.ok (.already (hooks.child Hook.name)), h) :=
        installHook_of_own (hs.names.makePath hs.directory) (isOwnHook_of_script he)
      simp [perform, hi]
    · obtain ⟨left, hu, hleft, -, hgone⟩ := hs.uninstall_of_script he
      exact ⟨left, by simp [perform, hu], ownEntry_of_absent hleft.names hgone⟩

/-- **A command keeps the hook settled**, and changes nothing but the hook. -/
theorem perform (hs : h.Settled hooks place) (c : HookCommand) :
    (h.perform hooks c).2.Settled hooks place ∧
      SameBut [place ++ [Hook.name]] h (h.perform hooks c).2 := by
  have hunchanged : SameBut [place ++ [Hook.name]] h h :=
    (SameBut.refl h).mono (by simp) fun q hq => List.mem_singleton.1 hq ▸ hs.free
  rcases hs.hook with habsent | ⟨node, he⟩
  · cases c with
    | install force =>
      obtain ⟨made, hi, hmade, hsame, -⟩ := hs.install_of_absent habsent force
      simp only [Host.perform, hi]
      exact ⟨hmade, hsame⟩
    | uninstall =>
      simp only [Host.perform, uninstallHook_of_absent (pathExists_of_absent hs.names habsent)]
      exact ⟨hs, hunchanged⟩
  · cases c with
    | install force =>
      simp only [Host.perform,
        installHook_of_own (hs.names.makePath hs.directory) (isOwnHook_of_script he)]
      exact ⟨hs, hunchanged⟩
    | uninstall =>
      obtain ⟨left, hu, hleft, hsame, -⟩ := hs.uninstall_of_script he
      simp only [Host.perform, hu]
      exact ⟨hleft, hsame⟩

end Settled

/-! ## The foreign hook -/

theorem isOwnHook_of_file {own : Bool} (hn : h.NamesAt hooks place)
    (hfile : h.tree.get? (place ++ [Hook.name]) = some (.file node content mode))
    (htext : IsText content own) : h.isOwnHook (hooks.child Hook.name) = .ok own := by
  have hl := hn.locate isName_name (by simp [hfile]) true
  exact isOwnHook_eq_ok_iff.2 ⟨node, content, mode, entry_eq_ok_iff.2 ⟨_, hl, hfile⟩, htext⟩

theorem foreign_answers (hn : h.NamesAt hooks place)
    (hfile : h.tree.get? (place ++ [Hook.name]) = some (.file node content mode))
    (htext : IsText content false) : h.HookForeign hooks := by
  have ho := isOwnHook_of_file hn hfile htext
  have hdir := Tree.exists_dir_of_get?_append hfile (by simp)
  constructor
  · simp [perform, installHook_of_foreign (hn.makePath hdir) ho]
  · simp [perform, uninstallHook_of_foreign ho]

/-- A foreign hook is one file with its backup when that is a name of the same number. -/
theorem oneFile_iff_of_file (hfile : h.tree.get? (place ++ [Hook.name]) =
      some (.file node content mode)) :
    h.OneFile place Hook.name Hook.backupName ↔
      ∃ e, h.tree.get? (place ++ [Hook.backupName]) = some e ∧ e.node? = some node := by
  constructor
  · rintro ⟨e, e', k, he, he', hk, hk'⟩
    rw [hfile] at he
    cases he
    cases hk
    exact ⟨e', he', hk'⟩
  · rintro ⟨e, he, hk⟩
    exact ⟨_, e, node, hfile, he, rfl, hk⟩

/-- **A forced installation over a foreign hook** fails and changes nothing, or settles the hook. It
leaves the foreign one as the backup, or, where that is another name of the hook, writes the script
over it under both names. The names in the directory have to stay where they are. -/
theorem installHook_forced (hn : h.NamesAt hooks place)
    (hfile : h.tree.get? (place ++ [Hook.name]) = some (.file node content mode))
    (htext : IsText content false) (hn' : (h.installHook hooks true).2.NamesAt hooks place) :
    (h.installHook hooks true).2 = h ∧ (∃ f, (h.installHook hooks true).1 = .error f) ∨
      (∃ i, (h.installHook hooks true).1 = .ok i) ∧
        (h.installHook hooks true).2.Settled hooks place ∧
        (¬ h.OneFile place Hook.name Hook.backupName ∧
            (h.installHook hooks true).2.tree.get? (place ++ [Hook.backupName]) =
              some (.file node content mode) ∨
          h.OneFile place Hook.name Hook.backupName ∧ (h.installHook hooks true).2 =
            h.revise node (fun _ => scriptOctets) fun _ => Entry.scriptMode) := by
  have ho := isOwnHook_of_file hn hfile htext
  have hdir := Tree.exists_dir_of_get?_append hfile (by simp)
  rcases hrename : h.rename (hooks.child Hook.name) (hooks.child Hook.backupName) with f | moved
  · have hi : h.installHook hooks true = (.error (.ofFault "backup hook" f), h) := by
      simp [installHook, hn.makePath hdir, installIn, pathExists_of_isOwnHook ho, ho, hrename]
    rw [hi]
    exact .inl ⟨rfl, _, rfl⟩
  · have hi := installHook_of_renamed (hn.makePath hdir) ho hrename
    rw [hi] at hn' ⊢
    right
    by_cases hone : h.OneFile place Hook.name Hook.backupName
    · obtain rfl := rename_of_oneFile (hn _ isName_name) (hn _ isName_backupName) hone hrename
      have hl := hn.locate isName_name (by simp [hfile]) true
      have hw := writeHook_of_file (entry_eq_ok_iff.2 ⟨_, hl, hfile⟩)
        (some (hooks.child Hook.backupName))
      obtain ⟨-, k, he⟩ := writeHook_ok hw
      rw [hw] at hn' ⊢
      obtain ⟨place', hs⟩ := settled_of_entry he
      obtain rfl : place' = place := hn'.eq hs.names
      exact ⟨⟨_, rfl⟩, hs, .inr ⟨hone, rfl⟩⟩
    · have hm := (rename_ok hrename (hn _ isName_name) (hn _ isName_backupName) (by decide) hfile
        (by simp)).resolve_right fun h' => hone h'.2
      obtain ⟨made, hw, hmade, hsame, hbackup, k, hthere⟩ := written_of_moved hm
        (namesAt_of_writeHook rfl hn') (some (hooks.child Hook.backupName))
      obtain ⟨u, hu⟩ := hdir
      have he := entry_eq_ok_iff.2
        ⟨_, hmade.locate isName_name (by simp [hthere]) true, hthere⟩
      rw [hw]
      exact ⟨⟨_, rfl⟩, ⟨hmade, hsame.get?_dir hu, .inr ⟨k, he⟩⟩, .inl ⟨hone, hbackup⟩⟩

/-! ## Runs -/

/-- The names in the directory of hooks stay where they are, whatever number of the commands is
carried out. Only a directory that is reached through a link with the name of the backup moves. -/
def StaysAt (h : Host) (hooks : Path) (commands : List HookCommand) : Prop :=
  ∀ place, h.NamesAt hooks place → ∀ before, before <+: commands →
    (h.performAll hooks before).NamesAt hooks place

/-- The command is a forced installation and succeeds. -/
def IsForced (c : HookCommand) (r : HookReport) : Prop :=
  c = .install true ∧ ∃ i, r = .install (.ok i)

/-- The command has written the hook. -/
def IsInstalled (_ : HookCommand) (r : HookReport) : Prop :=
  ∃ path b, r = .install (.ok (.installed path b))

/-- From the first installation on the hook is settled. -/
theorem settled_of_answered {commands : List HookCommand}
    (ha : h.Answered hooks commands IsInstalled) :
    ∃ place, (h.performAll hooks commands).Settled hooks place := by
  induction commands using List.reverseRecOn with
  | nil => exact absurd ha not_answered_nil
  | append_singleton commands c ih =>
    rw [performAll_concat]
    rcases answered_concat_iff.1 ha with ha | ⟨path, b, hr⟩
    · obtain ⟨place, hs⟩ := ih ha
      exact ⟨place, (hs.perform c).1⟩
    · cases c with
      | uninstall => cases hr
      | install force =>
        have hi : (h.performAll hooks commands).installHook hooks force =
            (.ok (.installed path b), ((h.performAll hooks commands).installHook hooks force).2) :=
          Prod.ext (HookReport.install.inj hr) rfl
        exact settled_of_installed hi

/-- What has become of a foreign hook that was there: it is the backup now, or, where the backup was
another name of it, the script. -/
structure BackedUp (h left : Host) (place : List RawText) (node : Nat) (content : Octets)
    (mode : Nat) : Prop where
  separate : ¬ h.OneFile place Hook.name Hook.backupName →
    left.tree.get? (place ++ [Hook.backupName]) = some (.file node content mode)
  twin : ∀ c m, h.tree.get? (place ++ [Hook.backupName]) = some (.file node c m) →
    left.tree.get? (place ++ [Hook.backupName]) = some (.file node scriptOctets Entry.scriptMode)

/-- A foreign hook stays, unless an installation is forced and succeeds. -/
theorem perform_foreign (c : HookCommand) (hn : h.NamesAt hooks place)
    (hfile : h.tree.get? (place ++ [Hook.name]) = some (.file node content mode))
    (htext : IsText content false) (hn' : (h.perform hooks c).2.NamesAt hooks place) :
    ¬ IsForced c (h.perform hooks c).1 ∧ (h.perform hooks c).2 = h ∨
      IsForced c (h.perform hooks c).1 ∧ (h.perform hooks c).2.Settled hooks place ∧
        h.BackedUp (h.perform hooks c).2 place node content mode := by
  have hforeign := foreign_answers hn hfile htext
  cases c with
  | uninstall =>
    rw [hforeign.uninstall]
    exact .inl ⟨fun hc => absurd hc.1 (by decide), rfl⟩
  | install force =>
    cases force with
    | false =>
      rw [hforeign.install]
      exact .inl ⟨fun hc => absurd hc.1 (by decide), rfl⟩
    | true =>
      rcases installHook_forced hn hfile htext hn' with ⟨hkept, f, hf⟩ | ⟨⟨i, hi⟩, hs, hbackup⟩
      · refine .inl ⟨?_, hkept⟩
        rintro ⟨-, i, hi⟩
        rw [HookReport.install.inj hi] at hf
        cases hf
      · refine .inr ⟨⟨rfl, i, congrArg HookReport.install hi⟩, hs, fun hseparate => ?_, ?_⟩
        · exact (hbackup.resolve_right fun h' => hseparate h'.1).2
        · intro c m hd
          have hone := (oneFile_iff_of_file hfile).2 ⟨_, hd, rfl⟩
          have hwritten := (hbackup.resolve_left fun h' => h'.1 hone).2
          simp only [perform, hwritten, revise, Tree.get?_revise, hd]
          simp [Entry.revise]

/-- A settled hook has no part in the backup. -/
theorem BackedUp.perform {left : Host} (hb : h.BackedUp left place node content mode)
    (hs : left.Settled hooks place) (c : HookCommand) :
    h.BackedUp (left.perform hooks c).2 place node content mode := by
  have hne : place ++ [Hook.backupName] ∉ [place ++ [Hook.name]] := by simpa using by decide
  have hsame := (hs.perform c).2
  exact ⟨fun hseparate => (hsame.get?_file hne).2 (hb.separate hseparate),
    fun c m hd => (hsame.get?_file hne).2 (hb.twin c m hd)⟩

/-- A foreign hook is as it was before the first forced installation that succeeds, and backed up
from there on. -/
theorem performAll_foreign {commands : List HookCommand} (hn : h.NamesAt hooks place)
    (hfile : h.tree.get? (place ++ [Hook.name]) = some (.file node content mode))
    (htext : IsText content false) (hstays : h.StaysAt hooks commands) :
    ¬ h.Answered hooks commands IsForced ∧ h.performAll hooks commands = h ∨
      h.Answered hooks commands IsForced ∧ (h.performAll hooks commands).Settled hooks place ∧
        h.BackedUp (h.performAll hooks commands) place node content mode := by
  induction commands using List.reverseRecOn with
  | nil => exact .inl ⟨not_answered_nil, rfl⟩
  | append_singleton commands c ih =>
    have hprefix : h.StaysAt hooks commands := fun place hn before hb =>
      hstays place hn before (hb.trans (List.prefix_append _ _))
    rw [performAll_concat, answered_concat_iff]
    rcases ih hprefix with ⟨hnot, hsame⟩ | ⟨ha, hs, hb⟩
    · have hnext := hstays place hn _ List.prefix_rfl
      rw [performAll_concat, hsame] at hnext
      rw [hsame]
      rcases perform_foreign c hn hfile htext hnext with ⟨hunforced, hkept⟩ | ⟨hforced, hs, hb⟩
      · exact .inl ⟨not_or.2 ⟨hnot, hunforced⟩, hkept⟩
      · exact .inr ⟨.inr hforced, hs, hb⟩
    · exact .inr ⟨.inl ha, (hs.perform c).1, hb.perform hs c⟩

/-- **The life cycle of the hook.** A foreign hook in a directory that stays where it is: before the
first forced installation that succeeds nothing has changed, an installation reports that the hook
exists and a removal that it is foreign; from there on the backup is the foreign hook, unless it was
another name of the hook: then it is the script. After the first installation the hook is the
executable script or absent. In the one case it is there already for an installation, and a removal
leaves it absent and reports the backup if there is one; in the other an installation writes it,
without a backup, and a removal finds nothing. -/
theorem life_cycle (h : Host) (hooks : Path) (commands : List HookCommand) :
    (∀ node content mode, h.ownEntry (hooks.child Hook.name) = .ok (.file node content mode) →
      IsText content false → h.StaysAt hooks commands →
      (¬ h.Answered hooks commands IsForced →
        h.performAll hooks commands = h ∧ (h.performAll hooks commands).HookForeign hooks) ∧
      (h.Answered hooks commands IsForced →
        ((∀ e, h.ownEntry (hooks.child Hook.backupName) = .ok e → e.node? ≠ some node) →
          (h.performAll hooks commands).ownEntry (hooks.child Hook.backupName) =
            .ok (.file node content mode)) ∧
        ∀ c m, h.ownEntry (hooks.child Hook.backupName) = .ok (.file node c m) →
          (h.performAll hooks commands).ownEntry (hooks.child Hook.backupName) =
            .ok (.file node scriptOctets Entry.scriptMode))) ∧
    (h.Answered hooks commands IsInstalled →
      (h.performAll hooks commands).HookPresent hooks ∨
        (h.performAll hooks commands).HookAbsent hooks) := by
  constructor
  · intro node content mode hown htext hstays
    obtain ⟨place, hn, hfile⟩ := exists_namesAt_of_ownEntry isName_name hown
    have hbackup : ∀ e, h.ownEntry (hooks.child Hook.backupName) = .ok e ↔
        h.tree.get? (place ++ [Hook.backupName]) = some e :=
      hn.ownEntry_eq_ok_iff isName_backupName
    rcases performAll_foreign hn hfile htext hstays with ⟨hnot, hsame⟩ | ⟨ha, hs, hb⟩
    · refine ⟨fun _ => ⟨hsame, ?_⟩, fun ha => absurd ha hnot⟩
      rw [hsame]
      exact foreign_answers hn hfile htext
    · refine ⟨fun hnot => absurd ha hnot, fun _ => ⟨fun hother => ?_, fun c m hd => ?_⟩⟩
      · refine (hs.names.ownEntry_eq_ok_iff isName_backupName _).2 (hb.separate fun h' => ?_)
        obtain ⟨e, he, hnode⟩ := (oneFile_iff_of_file hfile).1 h'
        exact hother e ((hbackup e).2 he) hnode
      · exact (hs.names.ownEntry_eq_ok_iff isName_backupName _).2
          (hb.twin c m ((hbackup _).1 hd))
  · intro ha
    obtain ⟨place, hs⟩ := settled_of_answered ha
    exact hs.answers

/-- A directory for hooks with a script of somebody else. -/
def makeProject : Host :=
  ⟨.dir "hooks" (.file "pre-commit" 0 (Text.octets "make\n") Entry.scriptMode .empty) .empty,
    [], []⟩

/-- The project after a forced installation. -/
def forcedProject : Host :=
  ⟨.dir "hooks" (.file "pre-commit.bak" 0 (Text.octets "make\n") Entry.scriptMode
    (.file "pre-commit" 1 scriptOctets Entry.scriptMode .empty)) .empty, [], []⟩

theorem perform_makeProject : makeProject.perform ⟨"hooks"⟩ (.install true) =
    (.install (.ok (.installed ⟨"hooks/pre-commit"⟩ (some ⟨"hooks/pre-commit.bak"⟩))),
      forcedProject) := by
  decide +kernel

theorem life_cycle_makeProject :
    (makeProject.performAll ⟨"hooks"⟩ [.install true]).ownEntry ⟨"hooks/pre-commit.bak"⟩ =
        .ok (.file 0 (Text.octets "make\n") Entry.scriptMode) ∧
      ((makeProject.performAll ⟨"hooks"⟩ [.install true]).HookPresent ⟨"hooks"⟩ ∨
        (makeProject.performAll ⟨"hooks"⟩ [.install true]).HookAbsent ⟨"hooks"⟩) := by
  have hstays : makeProject.StaysAt ⟨"hooks"⟩ [.install true] := by
    intro place hn before hbefore
    have hhooks : IsName "hooks" := by decide
    obtain rfl : place = ["hooks"] := (namesAt_of_name hhooks rfl).eq hn
    simp only [List.prefix_cons_iff, List.prefix_nil] at hbefore
    rcases hbefore with rfl | ⟨after, rfl, rfl⟩
    · exact namesAt_of_name hhooks rfl
    · rw [← List.nil_append [HookCommand.install true], performAll_concat, performAll_nil,
        perform_makeProject]
      exact namesAt_of_name hhooks rfl
  have hanswer : ((makeProject.performAll ⟨"hooks"⟩ []).perform ⟨"hooks"⟩ (.install true)).1 =
      .install (.ok (.installed ⟨"hooks/pre-commit"⟩ (some ⟨"hooks/pre-commit.bak"⟩))) := by
    rw [performAll_nil, perform_makeProject]
  have htext : IsText (Text.octets "make\n") false :=
    ⟨"make\n".toList, by decide +kernel, by decide +kernel⟩
  have hsingle : ∀ e, makeProject.ownEntry ⟨"hooks/pre-commit.bak"⟩ = .ok e →
      e.node? ≠ some 0 := by
    intro e he
    have hnone : makeProject.ownEntry ⟨"hooks/pre-commit.bak"⟩ = .error .notFound := by
      decide +kernel
    rw [hnone] at he
    cases he
  obtain ⟨hforeign, hown⟩ := life_cycle makeProject ⟨"hooks"⟩ [.install true]
  refine ⟨?_, hown ⟨[], _, List.prefix_rfl, _, _, hanswer⟩⟩
  exact ((hforeign _ _ _ (by decide +kernel) htext hstays).2
    ⟨[], _, List.prefix_rfl, rfl, _, hanswer⟩).1 hsingle

/-- A directory for hooks with a script of somebody else that has the name of the backup, too. -/
def twinProject : Host :=
  ⟨.dir "hooks" (.file "pre-commit" 0 (Text.octets "make\n") Entry.scriptMode
    (.file "pre-commit.bak" 0 (Text.octets "make\n") Entry.scriptMode .empty)) .empty, [], []⟩

/-- **A foreign hook is written over.** The forced installation succeeds and reports the backup, and
the backup is the script, as is the hook. -/
theorem hook_written_over :
    twinProject.ownEntry ⟨"hooks/pre-commit"⟩ =
        .ok (.file 0 (Text.octets "make\n") Entry.scriptMode) ∧
      IsText (Text.octets "make\n") false ∧
      (twinProject.perform ⟨"hooks"⟩ (.install true)).1 = .install (.ok
        (.installed ⟨"hooks/pre-commit"⟩ (some ⟨"hooks/pre-commit.bak"⟩))) ∧
      (twinProject.perform ⟨"hooks"⟩ (.install true)).2.ownEntry ⟨"hooks/pre-commit.bak"⟩ =
        .ok (.file 0 scriptOctets Entry.scriptMode) ∧
      (twinProject.perform ⟨"hooks"⟩ (.install true)).2.ownEntry ⟨"hooks/pre-commit.bak"⟩ ≠
        .ok (.file 0 (Text.octets "make\n") Entry.scriptMode) := by
  have hwritten : (twinProject.perform ⟨"hooks"⟩ (.install true)).2.ownEntry
      ⟨"hooks/pre-commit.bak"⟩ = .ok (.file 0 scriptOctets Entry.scriptMode) := by decide +kernel
  refine ⟨by decide +kernel, ⟨"make\n".toList, by decide +kernel, by decide +kernel⟩,
    by decide +kernel, hwritten, ?_⟩
  rw [hwritten]
  decide +kernel

end Host

end CommitGate

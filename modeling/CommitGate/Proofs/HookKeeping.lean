import CommitGate.Proofs.Hook

/-!
# What hook commands keep

A command about the hook takes away no file but the hook itself, when that carries the marker, and
an earlier backup, when a foreign hook takes its name. Every other file stays as it is, whatever
links the hook and its directory are reached through, and whatever other programs write as the hook
in between.

**Limit (one case).** A foreign hook and its backup may be two names of one file. Then a forced
installation moves nothing and writes over that file, and nothing is said here about what becomes of
it.

Results:

* `install_keeps_file`, `uninstall_keeps_file`: what can become of a file in one command.
* `backup_of_installed`: a backup that is reported is the hook that was there.
* `perform_keeps_hook`, `perform_keeps_backup`: the same for the two names that hooks have.
* `commands_keep_files`: what becomes of files when commands and other programs take turns.
* `content_lost`: a script with the marker is removed though it is not the script of this program,
  and an earlier backup is replaced.
-/

namespace CommitGate

open Text (Octets)

namespace Host

open Hook (IsText isName_name isName_backupName)

variable {h h' : Host} {hooks : Path} {q place : List RawText} {node : Nat} {c : Octets} {m : Nat}

/-- An installation finds a hook without the marker, among the names at the place. -/
def FindsForeign (h : Host) (hooks : Path) (place : List RawText) : Prop :=
  ∃ made, h.makePath hooks = (.ok (), made) ∧ made.NamesAt hooks place ∧
    made.isOwnHook (hooks.child Hook.name) = .ok false

/-- An installation finds a hook without the marker that has the backup as another name, and leads
to the file of that number. -/
def WritesOver (h : Host) (hooks : Path) (node : Nat) : Prop :=
  ∃ made place c m, h.makePath hooks = (.ok (), made) ∧ made.NamesAt hooks place ∧
    made.OneFile place Hook.name Hook.backupName ∧
    made.entry (hooks.child Hook.name) = .ok (.file node c m) ∧ IsText c false

/-! ## One command -/

/-- A change to a file keeps the others. -/
theorem revise_keeps_file {changed : Nat} {content : Octets → Octets} {mode : Nat → Nat}
    (hq : h.tree.get? q = some (.file node c m)) (hne : node ≠ changed) :
    (h.revise changed content mode).tree.get? q = some (.file node c m) := by
  rw [revise, Tree.get?_revise, hq]
  simp [Entry.revise, hne]

/-- Where a script is written, the files are kept to which the path does not lead. -/
theorem writeHook_keeps_file {p : Path} {b : Option Path} {r : Except Failure Installation}
    (hw : h.writeHook p b = (r, h')) (hq : h.tree.get? q = some (.file node c m))
    (hp : ∀ c m, h.entry p ≠ .ok (.file node c m)) :
    h'.tree.get? q = some (.file node c m) := by
  rcases writeHook_cases hw with
    ⟨-, hs⟩ | ⟨changed, c', m', he, -, rfl⟩ | ⟨d, -, hd, hs, -, -, -⟩
  · exact (hs.get?_file List.not_mem_nil).2 hq
  · refine revise_keeps_file hq ?_
    rintro rfl
    exact hp c' m' he
  · refine (hs.get?_file fun hmem => ?_).2 hq
    rw [List.mem_singleton.1 hmem, hd] at hq
    cases hq

/-- After a hook that led to a file has moved, the script is no change to a file that is there. -/
theorem writeHook_keeps_file_of_moved {e : Entry} {made moved : Host} {b : Option Path}
    {r : Except Failure Installation} {own : Bool}
    (hm : Moved place Hook.name Hook.backupName e made moved) (hn : made.NamesAt hooks place)
    (ho : made.isOwnHook (hooks.child Hook.name) = .ok own)
    (hw : moved.writeHook (hooks.child Hook.name) b = (r, h'))
    (hq : moved.tree.get? q = some (.file node c m)) :
    h'.tree.get? q = some (.file node c m) := by
  obtain ⟨k, c', m', hfile, -⟩ := isOwnHook_eq_ok_iff.1 ho
  refine writeHook_keeps_file hw hq fun c m he => ?_
  obtain ⟨d, hl, hd⟩ := entry_eq_ok_iff.1 he
  rw [hm.locate_eq isName_name hn hfile hl, hm.gone] at hd
  cases hd

/-- **An installation keeps every file**, but that a foreign hook moves to the backup, and what was
there before is gone; or else the foreign hook and its backup are one file, and the file is the one
that is written over. -/
theorem install_keeps_file (hooks : Path) (force : Bool)
    (hq : h.tree.get? q = some (.file node c m)) :
    (h.installHook hooks force).2.tree.get? q = some (.file node c m) ∨
      force = true ∧ (h.WritesOver hooks node ∨ ∃ place, h.FindsForeign hooks place ∧
        (q = place ++ [Hook.name] ∧
            (h.installHook hooks force).2.tree.get? (place ++ [Hook.backupName]) =
              some (.file node c m) ∨
          q = place ++ [Hook.backupName])) := by
  rcases hi : h.installHook hooks force with ⟨r, h'⟩
  rcases installHook_cases hi with ⟨hgrows, -⟩ | ⟨made, hmake, habsent | hforeign⟩
  · exact .inl (hgrows.get?_file hq)
  · obtain ⟨hexists, hw⟩ := habsent
    have hgrows := makePath_grows h hooks
    rw [hmake] at hgrows
    refine .inl (writeHook_keeps_file hw (hgrows.get?_file hq) fun c m he => ?_)
    rw [pathExists_iff.2 ⟨_, he⟩] at hexists
    cases hexists
  · obtain ⟨rfl, hforeign, moved, hrename, hw⟩ := hforeign
    have hgrows := makePath_grows h hooks
    rw [hmake] at hgrows
    have hmade := hgrows.get?_file hq
    obtain ⟨place, hn, ⟨e, hm⟩ | ⟨rfl, hone⟩⟩ := moved_of_rename hforeign hrename
    · have hfinds : h.FindsForeign hooks place := ⟨made, hmake, hn, hforeign⟩
      by_cases hmem : q ∈ [place ++ [Hook.name], place ++ [Hook.backupName]]
      · rcases List.mem_pair.1 hmem with rfl | rfl
        · have hthere := hm.there
          rw [Option.some.inj (hm.before.symm.trans hmade)] at hthere
          have hkept := writeHook_keeps_file_of_moved hm hn hforeign hw hthere
          exact .inr ⟨rfl, .inr ⟨place, hfinds, .inl ⟨rfl, hkept⟩⟩⟩
        · exact .inr ⟨rfl, .inr ⟨place, hfinds, .inr rfl⟩⟩
      · have hthere := (hm.same.get?_file hmem).2 hmade
        exact .inl (writeHook_keeps_file_of_moved hm hn hforeign hw hthere)
    · obtain ⟨changed, c', m', he, htext⟩ := isOwnHook_eq_ok_iff.1 hforeign
      by_cases hnode : node = changed
      · subst hnode
        exact .inr ⟨rfl, .inl ⟨_, place, c', m', hmake, hn, hone, he, htext⟩⟩
      · refine .inl (writeHook_keeps_file hw hmade fun c m he' => hnode ?_)
        rw [he] at he'
        exact (Entry.file.inj (Except.ok.inj he')).1.symm

/-- An installation that reports a backup has made it of the hook, and the script is in its place,
unless the backup was another name of the hook. -/
theorem backup_of_installed {force : Bool} {path b : Path} (hn : h.NamesAt hooks place)
    (hnot : ¬ h.OneFile place Hook.name Hook.backupName)
    (hq : h.tree.get? (place ++ [Hook.name]) = some (.file node c m))
    (hi : h.installHook hooks force = (.ok (.installed path (some b)), h')) :
    h'.tree.get? (place ++ [Hook.backupName]) = some (.file node c m) ∧
      ∃ node, h'.entry (hooks.child Hook.name) =
        .ok (.file node Hook.scriptOctets Entry.scriptMode) := by
  have hthere := hn.makePath (Tree.exists_dir_of_get?_append hq (by simp))
  rcases installHook_cases hi with
    ⟨-, hnone⟩ | ⟨made, hmake, ⟨-, hw⟩ | ⟨-, hforeign, moved, hr, hw⟩⟩
  · exact absurd rfl (hnone path (some b))
  · cases (writeHook_ok hw).1
  · obtain rfl : h = made := (Prod.mk.inj (hthere.symm.trans hmake)).2
    obtain ⟨place', hn', ⟨e, hm⟩ | ⟨-, hone⟩⟩ := moved_of_rename hforeign hr
    · obtain rfl : place = place' := hn'.eq hn
      have hbackup := hm.there
      rw [Option.some.inj (hm.before.symm.trans hq)] at hbackup
      exact ⟨writeHook_keeps_file_of_moved hm hn hforeign hw hbackup, (writeHook_ok hw).2⟩
    · obtain rfl : place = place' := hn'.eq hn
      exact absurd hone hnot

/-- **A removal keeps every file** but a hook with the marker. -/
theorem uninstall_keeps_file (hooks : Path) (hq : h.tree.get? q = some (.file node c m)) :
    (h.uninstallHook hooks).2.tree.get? q = some (.file node c m) ∨
      ∃ place, h.NamesAt hooks place ∧ q = place ++ [Hook.name] ∧ IsText c true := by
  rcases hu : h.uninstallHook hooks with ⟨r, h'⟩
  rcases uninstallHook_cases hu with ⟨rfl, -⟩ | ⟨hown, hremove⟩
  · exact .inl hq
  · obtain ⟨d, hl, hs, -⟩ := removeFile_ok hremove
    by_cases hd : q = d
    · subst hd
      obtain ⟨place, hn, -⟩ := exists_namesAt isName_name hl
      obtain rfl : q = place ++ [Hook.name] := Except.ok.inj (hl.symm.trans (hn _ isName_name))
      obtain ⟨k, c', m', he, htext⟩ := isOwnHook_eq_ok_iff.1 hown
      -- the file is no link, so it is the one that was read
      have he' : h.entry (hooks.child Hook.name) = .ok (.file node c m) :=
        entry_of_ownEntry (ownEntry_eq_ok_iff.2 ⟨_, hl, hq⟩) (by simp)
      obtain ⟨rfl, rfl, rfl⟩ := Entry.file.inj (Except.ok.inj (he.symm.trans he'))
      exact .inr ⟨place, hn, rfl, htext⟩
    · exact .inl ((hs.get?_file (by simpa using hd)).2 hq)

theorem concat_name_ne_concat_backupName (a b : List RawText) :
    a ++ [Hook.name] ≠ b ++ [Hook.backupName] := by
  intro heq
  exact absurd (List.append_singleton_inj.1 heq).2 (by decide)

/-- A file called like the hook is kept or becomes the backup, unless it is a hook with the marker
and is removed, or is written over. -/
theorem perform_keeps_hook (command : HookCommand)
    (hq : h.tree.get? (place ++ [Hook.name]) = some (.file node c m)) :
    (h.perform hooks command).2.tree.get? (place ++ [Hook.name]) = some (.file node c m) ∨
      (h.perform hooks command).2.tree.get? (place ++ [Hook.backupName]) =
        some (.file node c m) ∨
      command = .uninstall ∧ h.NamesAt hooks place ∧ IsText c true ∨
      command = .install true ∧ h.WritesOver hooks node := by
  cases command with
  | install force =>
    rcases install_keeps_file hooks force hq with
      hkept | ⟨rfl, hover | ⟨place', -, ⟨heq, hmoved⟩ | heq⟩⟩
    · exact .inl hkept
    · exact .inr (.inr (.inr ⟨rfl, hover⟩))
    · rw [← (List.append_singleton_inj.1 heq).1] at hmoved
      exact .inr (.inl hmoved)
    · exact absurd heq (concat_name_ne_concat_backupName _ _)
  | uninstall =>
    rcases uninstall_keeps_file hooks hq with hkept | ⟨place', hn, heq, htext⟩
    · exact .inl hkept
    · rw [← (List.append_singleton_inj.1 heq).1] at hn
      exact .inr (.inr (.inl ⟨rfl, hn, htext⟩))

/-- A file called like the backup is kept, unless a foreign hook beside it takes its name, or it is
written over. -/
theorem perform_keeps_backup (command : HookCommand)
    (hq : h.tree.get? (place ++ [Hook.backupName]) = some (.file node c m)) :
    (h.perform hooks command).2.tree.get? (place ++ [Hook.backupName]) = some (.file node c m) ∨
      command = .install true ∧ (h.FindsForeign hooks place ∨ h.WritesOver hooks node) := by
  cases command with
  | install force =>
    rcases install_keeps_file hooks force hq with
      hkept | ⟨rfl, hover | ⟨place', hfinds, ⟨heq, -⟩ | heq⟩⟩
    · exact .inl hkept
    · exact .inr ⟨rfl, .inr hover⟩
    · exact absurd heq.symm (concat_name_ne_concat_backupName _ _)
    · rw [← (List.append_singleton_inj.1 heq).1] at hfinds
      exact .inr ⟨rfl, .inl hfinds⟩
  | uninstall =>
    rcases uninstall_keeps_file hooks hq with hkept | ⟨place', -, heq, -⟩
    · exact .inl hkept
    · exact absurd heq.symm (concat_name_ne_concat_backupName _ _)

end Host

/-! ## Commands and other programs -/

/-- What happens to the hook: a command of this program is carried out, or another program makes a
new hook. -/
inductive HookAction where
  | command (c : HookCommand)
  | write (content : Octets) (mode : Nat)

namespace Host

/-- Another program puts a new file in the place of the hook, whatever stood there, but for a
directory. -/
def replaceHook (h : Host) (hooks : Path) (content : Octets) (mode : Nat) : Host :=
  match h.locate false (hooks.child Hook.name) with
  | .error _ => h
  | .ok place =>
    match h.tree.get? place with
    | some (.dir _) => h
    | _ => h.putEntry place (.file h.tree.freshNode content mode)

/-- Carries out an action. -/
def act (h : Host) (hooks : Path) : HookAction → Host
  | .command c => (h.perform hooks c).2
  | .write content mode => h.replaceHook hooks content mode

/-- The host after some actions. -/
def actAll (h : Host) (hooks : Path) (actions : List HookAction) : Host :=
  actions.foldl (fun h a => h.act hooks a) h

open Hook (IsText isName_name isName_backupName)

variable {h h' : Host} {hooks : Path} {q place : List RawText} {node : Nat} {c : Octets} {m : Nat}

theorem replaceHook_keeps_file {content : Octets} {mode : Nat}
    (hq : h.tree.get? q = some (.file node c m)) (hname : ∀ place, q ≠ place ++ [Hook.name]) :
    (h.replaceHook hooks content mode).tree.get? q = some (.file node c m) := by
  unfold replaceHook
  split
  · exact hq
  · next d hl =>
    split
    · exact hq
    · next hdir =>
      have hs : SameBut [d] h (h.putEntry d (.file h.tree.freshNode content mode)) :=
        sameBut_putEntry rfl hdir
      obtain ⟨place, hn, -⟩ := exists_namesAt isName_name hl
      obtain rfl : d = place ++ [Hook.name] := Except.ok.inj (hl.symm.trans (hn _ isName_name))
      exact (hs.get?_file (by simpa using hname place)).2 hq

/-- A file with another name than the hook and its backup is kept by every action that does not
write over it. -/
theorem act_keeps_file {n : RawText} (hname : n ≠ Hook.name) (hbackup : n ≠ Hook.backupName)
    (a : HookAction) (hq : h.tree.get? (place ++ [n]) = some (.file node c m))
    (hover : a = .command (.install true) → ¬ h.WritesOver hooks node) :
    (h.act hooks a).tree.get? (place ++ [n]) = some (.file node c m) := by
  cases a with
  | write content mode =>
    refine replaceHook_keeps_file hq fun place' heq => ?_
    exact hname (List.append_singleton_inj.1 heq).2
  | command command =>
    cases command with
    | install force =>
      rcases install_keeps_file hooks force hq with
        hkept | ⟨rfl, hwrites | ⟨place', -, ⟨heq, -⟩ | heq⟩⟩
      · exact hkept
      · exact absurd hwrites (hover rfl)
      · exact absurd (List.append_singleton_inj.1 heq).2 hname
      · exact absurd (List.append_singleton_inj.1 heq).2 hbackup
    | uninstall =>
      rcases uninstall_keeps_file hooks hq with hkept | ⟨place', -, heq, -⟩
      · exact hkept
      · exact absurd (List.append_singleton_inj.1 heq).2 hname

/-- No forced installation among the actions writes over the file of that number. -/
def Spares (h : Host) (hooks : Path) (actions : List HookAction) (node : Nat) : Prop :=
  ∀ before, before ++ [.command (.install true)] <+: actions →
    ¬ (h.actAll hooks before).WritesOver hooks node

theorem actAll_keeps_file {n : RawText} (hname : n ≠ Hook.name) (hbackup : n ≠ Hook.backupName)
    (actions : List HookAction) (hq : h.tree.get? (place ++ [n]) = some (.file node c m))
    (hspares : h.Spares hooks actions node) :
    (h.actAll hooks actions).tree.get? (place ++ [n]) = some (.file node c m) := by
  induction actions generalizing h with
  | nil => exact hq
  | cons a actions ih =>
    have hfirst : a = .command (.install true) → ¬ h.WritesOver hooks node := by
      rintro rfl
      exact hspares [] (by simp)
    refine ih (act_keeps_file hname hbackup a hq hfirst) fun before hprefix => ?_
    exact hspares (a :: before) (by simpa using hprefix)

/-- **What commands and other programs leave of the files.** A file that is called neither like the
hook nor like its backup stays as it is for ever, unless it is written over. At each command, a file
called like the hook is there afterwards or has become the backup in its directory, unless it was
the hook, had the marker and was uninstalled; and a backup stays, unless an installation is forced
on a foreign hook beside it. Where an installation reports a backup, that is the file that was the
hook. A file is written over where it is the foreign hook, or what that leads to, the installation
is forced, and the hook and its backup are two names of one file. -/
theorem commands_keep_files (h : Host) (hooks : Path) (actions : List HookAction) :
    (∀ place n node content mode, n ≠ Hook.name → n ≠ Hook.backupName →
      h.tree.get? (place ++ [n]) = some (.file node content mode) →
      h.Spares hooks actions node →
      (h.actAll hooks actions).tree.get? (place ++ [n]) = some (.file node content mode)) ∧
    ∀ before c, before ++ [.command c] <+: actions →
      let now := h.actAll hooks before
      let next := (now.perform hooks c).2
      ∀ place node content mode,
        (now.tree.get? (place ++ [Hook.name]) = some (.file node content mode) →
          next.tree.get? (place ++ [Hook.name]) = some (.file node content mode) ∨
          next.tree.get? (place ++ [Hook.backupName]) = some (.file node content mode) ∨
          c = .uninstall ∧ now.NamesAt hooks place ∧ IsText content true ∨
          c = .install true ∧ now.WritesOver hooks node) ∧
        (now.tree.get? (place ++ [Hook.backupName]) = some (.file node content mode) →
          next.tree.get? (place ++ [Hook.backupName]) = some (.file node content mode) ∨
          c = .install true ∧ (now.FindsForeign hooks place ∨ now.WritesOver hooks node)) ∧
        ∀ path b, (now.perform hooks c).1 = .install (.ok (.installed path (some b))) →
          now.NamesAt hooks place → ¬ now.OneFile place Hook.name Hook.backupName →
          now.tree.get? (place ++ [Hook.name]) = some (.file node content mode) →
          next.tree.get? (place ++ [Hook.backupName]) = some (.file node content mode) ∧
          ∃ made, next.entry (hooks.child Hook.name) =
            .ok (.file made Hook.scriptOctets Entry.scriptMode) := by
  constructor
  · intro place n node content mode hname hbackup hq hspares
    exact actAll_keeps_file hname hbackup actions hq hspares
  · intro before c _ now next place node content mode
    refine ⟨perform_keeps_hook c, perform_keeps_backup c, fun path b hr hn hnot hq => ?_⟩
    cases c with
    | install force =>
      exact backup_of_installed hn hnot hq (Prod.ext (HookReport.install.inj hr) rfl)
    | uninstall => cases hr

/-- A directory for hooks with a script of somebody else, a sample and an earlier backup. -/
def lintProject : Host :=
  ⟨.dir "hooks" (.file "pre-commit" 0 (Text.octets "make lint\n") Entry.scriptMode
    (.file "pre-commit.bak" 1 (Text.octets "make test\n") Entry.scriptMode
      (.file "sample" 2 [] Entry.plainMode .empty))) .empty, [], []⟩

theorem tree_lintProject_forced :
    (lintProject.perform ⟨"hooks"⟩ (.install true)).2.tree =
      .dir "hooks" (.file "pre-commit.bak" 0 (Text.octets "make lint\n") Entry.scriptMode
        (.file "sample" 2 [] Entry.plainMode
          (.file "pre-commit" 3 Hook.scriptOctets Entry.scriptMode .empty))) .empty := by
  decide +kernel

theorem commands_keep_files_lintProject :
    (lintProject.actAll ⟨"hooks"⟩ [.command (.install true), .command .uninstall]).tree.get?
        ["hooks", "sample"] = some (.file 2 [] Entry.plainMode) ∧
      (lintProject.perform ⟨"hooks"⟩ (.install true)).2.tree.get? ["hooks", "pre-commit.bak"] =
        some (.file 0 (Text.octets "make lint\n") Entry.scriptMode) := by
  obtain ⟨hother, hstep⟩ := commands_keep_files lintProject ⟨"hooks"⟩
    [.command (.install true), .command .uninstall]
  have hover : ∀ node, ¬ lintProject.WritesOver ⟨"hooks"⟩ node := by
    rintro node ⟨made, place, c, m, hmake, hn, hone, -, -⟩
    have hnames : lintProject.NamesAt ⟨"hooks"⟩ ["hooks"] := namesAt_of_name (by decide) rfl
    obtain rfl : lintProject = made :=
      (Prod.mk.inj ((hnames.makePath ⟨_, rfl⟩).symm.trans hmake)).2
    obtain rfl : place = ["hooks"] := hnames.eq hn
    obtain ⟨e, e', node, he, he', hnode, hnode'⟩ := hone
    cases he
    cases he'
    cases hnode
    cases hnode'
  have hspares : lintProject.Spares ⟨"hooks"⟩
      [.command (.install true), .command .uninstall] 2 := by
    intro before hprefix
    obtain rfl : before = [] := by
      rcases before with _ | ⟨a, _ | ⟨b, before⟩⟩
      · rfl
      · simp at hprefix
      · simp at hprefix
    exact hover 2
  refine ⟨hother ["hooks"] "sample" _ _ _ (by decide) (by decide) rfl hspares, ?_⟩
  obtain ⟨hhook, -, -⟩ := hstep [] (.install true) ⟨[.command .uninstall], rfl⟩
    ["hooks"] 0 (Text.octets "make lint\n") Entry.scriptMode
  rcases hhook rfl with hkept | hmoved | ⟨huninstall, -⟩ | ⟨-, hwrites⟩
  · simp only [actAll, List.foldl_nil, tree_lintProject_forced] at hkept
    cases hkept
  · exact hmoved
  · cases huninstall
  · exact absurd hwrites (hover 0)

/-- A directory for hooks with a script that was made from that of this program. -/
def editedProject : Host :=
  ⟨.dir "hooks" (.file "pre-commit" 0 (Text.octets "# precommit-gate hook\nmake lint\n")
    Entry.scriptMode .empty) .empty, [], []⟩

theorem tree_editedProject_uninstalled :
    (editedProject.perform ⟨"hooks"⟩ .uninstall).2.tree = .dir "hooks" .empty .empty := by
  decide +kernel

/-- **Content is lost.** A removal takes away a script that has the marker and is none of this
program, and a forced installation an earlier backup: no name in the directory stands for the
content any more. -/
theorem content_lost :
    (Text.octets "# precommit-gate hook\nmake lint\n" ≠ Hook.scriptOctets ∧
      editedProject.tree.get? ["hooks", "pre-commit"] =
        some (.file 0 (Text.octets "# precommit-gate hook\nmake lint\n") Entry.scriptMode) ∧
      ∀ n node mode, (editedProject.perform ⟨"hooks"⟩ .uninstall).2.tree.get? ["hooks", n] ≠
        some (.file node (Text.octets "# precommit-gate hook\nmake lint\n") mode)) ∧
    (Text.octets "make test\n" ≠ Hook.scriptOctets ∧
      lintProject.tree.get? ["hooks", "pre-commit.bak"] =
        some (.file 1 (Text.octets "make test\n") Entry.scriptMode) ∧
      ∀ n node mode, (lintProject.perform ⟨"hooks"⟩ (.install true)).2.tree.get? ["hooks", n] ≠
        some (.file node (Text.octets "make test\n") mode)) := by
  have hscript : Text.octets "make test\n" ≠ Hook.scriptOctets := by decide +kernel
  refine ⟨⟨by decide +kernel, rfl, fun n node mode => ?_⟩,
    ⟨hscript, rfl, fun n node mode => ?_⟩⟩
  · rw [tree_editedProject_uninstalled]
    simp [Tree.get?, Tree.find?]
  · have hlint : Text.octets "make lint\n" ≠ Text.octets "make test\n" := by decide +kernel
    have hempty : [] ≠ Text.octets "make test\n" := by decide +kernel
    rw [tree_lintProject_forced]
    simp only [Tree.get?, Tree.find?, if_true]
    split
    · simp [hlint]
    · split
      · simp [hempty]
      · split
        · simp [hscript.symm]
        · simp

end Host

end CommitGate

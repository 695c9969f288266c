import CommitGate.Proofs.HookLifeCycle
import CommitGate.Proofs.Markers

/-!
# What an installation is worth

A foreign script that is text gives way to a forced installation, and to nothing else. After every
installation that is reported, the path of the hook leads to a script with the marker. When it has
just been written it can be executed; a script that was there already is left as it is, and so are
its permission bits.

**Deviation from the purpose (two gaps).** Whose a hook is shows in its text, so a hook that is no
UTF-8 is neither foreign nor can it be moved: every command fails on it (`compiled_hook_stays`). And
a script with the marker counts as installed even where nobody may execute it
(`idle_hook_reported`).

Results:

* `isText_iff`: whose a hook is, told by its octets.
* `installation_over_foreign`: what the commands do to a foreign hook without a backup beside it.
* `reported_hook`: what stands at the hook after a reported installation.
-/

namespace CommitGate

open Text (Octets octets)

namespace Hook

/-- A content is text with or without the marker when it is UTF-8 and the octets of the marker stand
in it or not. -/
theorem isText_iff {content : Octets} {marked : Bool} :
    IsText content marked ↔
      (∃ s, Text.decode? content = some s) ∧ (marked = true ↔ octets marker <:+: content) := by
  have hread : ∀ s, Text.decode? content = some s →
      (stands marker (String.ofList s) = true ↔ octets marker <:+: content) := by
    intro s hs
    have htext : Host.contentText content = String.ofList s := by
      rw [Host.contentText, Text.decodeLossy_of_decode? hs]
    rw [← htext]
    exact Host.stands_contentText_iff (by decide +kernel) content
  constructor
  · rintro ⟨s, hs, rfl⟩
    exact ⟨⟨s, hs⟩, hread s hs⟩
  · rintro ⟨⟨s, hs⟩, hmarked⟩
    refine ⟨s, hs, ?_⟩
    rw [Bool.eq_iff_iff, hread s hs, hmarked]

end Hook

namespace Host

open Hook (IsText scriptOctets isName_name isName_backupName isText_script)

variable {h h' : Host} {hooks : Path} {place : List RawText} {node : Nat}
  {content : Octets} {mode : Nat}

/-! ## Over a foreign hook -/

/-- **A forced installation moves a foreign script** to the backup, where none is in the way, and
writes the hook in its place. -/
theorem installHook_moves (hn : h.NamesAt hooks place)
    (hfile : h.tree.get? (place ++ [Hook.name]) = some (.file node content mode))
    (htext : IsText content false) (hfree : h.tree.get? (place ++ [Hook.backupName]) = none) :
    ∃ made, h.installHook hooks true = (.ok (.installed (hooks.child Hook.name)
        (some (hooks.child Hook.backupName))), made) ∧
      made.NamesAt hooks place ∧
      SameBut [place ++ [Hook.name], place ++ [Hook.backupName]] h made ∧
      made.tree.get? (place ++ [Hook.backupName]) = some (.file node content mode) ∧
      ∃ k, made.tree.get? (place ++ [Hook.name]) =
        some (.file k scriptOctets Entry.scriptMode) := by
  have ho := isOwnHook_of_file hn hfile htext
  have hdir := Tree.exists_dir_of_get?_append hfile (by simp)
  obtain ⟨moved, hrename⟩ : ∃ moved,
      h.rename (hooks.child Hook.name) (hooks.child Hook.backupName) = .ok moved := by
    simp [rename, bind, Except.bind, hn _ isName_name, hn _ isName_backupName, hfile, hfree]
  have hone : ¬ h.OneFile place Hook.name Hook.backupName := by
    rintro ⟨_, _, _, -, he, -⟩
    rw [hfree] at he
    cases he
  have hm : Moved place Hook.name Hook.backupName (.file node content mode) h moved :=
    (rename_ok hrename (hn _ isName_name) (hn _ isName_backupName) (by decide) hfile
      (by simp)).resolve_right fun h' => hone h'.2
  -- no link is concerned, so the names stay where they are
  have hmoved : moved.NamesAt hooks place := by
    refine hn.sameBut hm.same fun q n k g hmem hg => ?_
    rcases List.mem_pair.1 hmem with heq | heq
    · rw [heq, hfile] at hg
      cases hg
    · rw [heq, hfree] at hg
      cases hg
  obtain ⟨made, hw, hmade⟩ := written_of_moved hm hmoved (some (hooks.child Hook.backupName))
  exact ⟨made, (installHook_of_renamed (hn.makePath hdir) ho hrename).trans hw, hmade⟩

/-- No command gets past a hook that is no text. -/
theorem perform_of_not_text (hn : h.NamesAt hooks place)
    (hfile : h.tree.get? (place ++ [Hook.name]) = some (.file node content mode))
    (hnot : Text.decode? content = none) :
    (∀ force, h.installHook hooks force = (.error (.ofFault "read existing hook" .notUtf8), h)) ∧
      h.uninstallHook hooks = (.error (.ofFault "read existing hook" .notUtf8), h) := by
  have hl := hn.locate isName_name (by simp [hfile]) true
  have he : h.entry (hooks.child Hook.name) = .ok (.file node content mode) :=
    entry_eq_ok_iff.2 ⟨_, hl, hfile⟩
  have hread : h.isOwnHook (hooks.child Hook.name) =
      .error (.ofFault "read existing hook" .notUtf8) := by
    simp [isOwnHook, readText, readFile, bind, Except.bind, he, hnot]
  have hexists := pathExists_iff.2 ⟨_, he⟩
  have hmake := hn.makePath (Tree.exists_dir_of_get?_append hfile (by simp))
  constructor
  · intro force
    simp [installHook, hmake, installIn, hexists, hread]
  · simp [uninstallHook, hexists, hread]

/-- **A foreign hook without a backup beside it.** A hook that is text is left alone by an
installation that is not forced and by a removal. A forced installation moves it to the backup as it
is and writes the executable script in its place, and changes nothing else. On a hook that is no
text every command fails and changes nothing. -/
theorem installation_over_foreign
    (hook : h.ownEntry (hooks.child Hook.name) = .ok (.file node content mode))
    (foreign : ¬ octets Hook.marker <:+: content)
    (single : h.ownEntry (hooks.child Hook.backupName) = .error .notFound) :
    ((∃ s, Text.decode? content = some s) →
      h.installHook hooks false = (.error (.hookExists (hooks.child Hook.name)), h) ∧
      h.uninstallHook hooks = (.ok (.foreign (hooks.child Hook.name)), h) ∧
      ∃ made, h.installHook hooks true = (.ok (.installed (hooks.child Hook.name)
          (some (hooks.child Hook.backupName))), made) ∧
        made.ownEntry (hooks.child Hook.backupName) = .ok (.file node content mode) ∧
        (∃ k, made.ownEntry (hooks.child Hook.name) =
          .ok (.file k scriptOctets Entry.scriptMode)) ∧
        made.isProgram (hooks.child Hook.name) = true ∧
        ∃ place, h.NamesAt hooks place ∧
          SameBut [place ++ [Hook.name], place ++ [Hook.backupName]] h made) ∧
    (Text.decode? content = none →
      (∀ force, h.installHook hooks force =
        (.error (.ofFault "read existing hook" .notUtf8), h)) ∧
      h.uninstallHook hooks = (.error (.ofFault "read existing hook" .notUtf8), h)) := by
  obtain ⟨place, hn, hfile⟩ := exists_namesAt_of_ownEntry isName_name hook
  have hfree := (hn.ownEntry_eq_notFound_iff isName_backupName).1 single
  refine ⟨fun htext => ?_, perform_of_not_text hn hfile⟩
  have hforeign : IsText content false := Hook.isText_iff.2 ⟨htext, by simpa using foreign⟩
  have ho := isOwnHook_of_file hn hfile hforeign
  have hdir := Tree.exists_dir_of_get?_append hfile (by simp)
  obtain ⟨made, hi, hmade, hsame, hbackup, k, hscript⟩ :=
    installHook_moves hn hfile hforeign hfree
  refine ⟨installHook_of_foreign (hn.makePath hdir) ho, uninstallHook_of_foreign ho, made, hi,
    ownEntry_eq_ok_iff.2 ⟨_, hmade _ isName_backupName, hbackup⟩, ?_, ?_, place, hn, hsame⟩
  · exact ⟨k, ownEntry_eq_ok_iff.2 ⟨_, hmade _ isName_name, hscript⟩⟩
  · have he := entry_eq_ok_iff.2 ⟨_, hmade.locate isName_name (by simp [hscript]) true, hscript⟩
    rw [isProgram, he]
    show (Entry.scriptMode &&& 0o111 != 0) = true
    decide

/-- A script of somebody else moves over to the backup. -/
theorem installation_over_foreign_makeProject :
    ∃ made, makeProject.installHook ⟨"hooks"⟩ true = (.ok (.installed ⟨"hooks/pre-commit"⟩
        (some ⟨"hooks/pre-commit.bak"⟩)), made) ∧
      made.ownEntry ⟨"hooks/pre-commit.bak"⟩ =
        .ok (.file 0 (octets "make\n") Entry.scriptMode) ∧
      made.isProgram ⟨"hooks/pre-commit"⟩ = true := by
  have hforeign : ¬ octets Hook.marker <:+: octets "make\n" := by
    rw [← Text.occursIn_iff_isInfix]
    decide +kernel
  have hhook : makeProject.ownEntry ((⟨"hooks"⟩ : Path).child Hook.name) =
      .ok (.file 0 (octets "make\n") Entry.scriptMode) := by decide +kernel
  have hsingle : makeProject.ownEntry ((⟨"hooks"⟩ : Path).child Hook.backupName) =
      .error .notFound := by decide +kernel
  obtain ⟨htext, -⟩ := installation_over_foreign hhook hforeign hsingle
  obtain ⟨-, -, made, hi, hbackup, -, hprogram, -⟩ := htext ⟨"make\n".toList, by decide +kernel⟩
  exact ⟨made, hi, hbackup, hprogram⟩

/-- A directory for hooks with a program that is no script. -/
def compiledProject : Host :=
  ⟨.dir "hooks" (.file "pre-commit" 0 [0x7F, 0x45, 0x4C, 0x46, 0xFF] Entry.scriptMode .empty)
    .empty, [], []⟩

/-- **A foreign hook stays where it is**, though the installation is forced and no backup is in the
way, and it is not called foreign, because it is no text. -/
theorem compiled_hook_stays :
    compiledProject.ownEntry ⟨"hooks/pre-commit"⟩ =
        .ok (.file 0 [0x7F, 0x45, 0x4C, 0x46, 0xFF] Entry.scriptMode) ∧
      ¬ octets Hook.marker <:+: [0x7F, 0x45, 0x4C, 0x46, 0xFF] ∧
      compiledProject.ownEntry ⟨"hooks/pre-commit.bak"⟩ = .error .notFound ∧
      compiledProject.installHook ⟨"hooks"⟩ true =
        (.error (.ofFault "read existing hook" .notUtf8), compiledProject) ∧
      compiledProject.installHook ⟨"hooks"⟩ false ≠
        (.error (.hookExists ⟨"hooks/pre-commit"⟩), compiledProject) ∧
      compiledProject.uninstallHook ⟨"hooks"⟩ ≠
        (.ok (.foreign ⟨"hooks/pre-commit"⟩), compiledProject) := by
  have hforeign : ¬ octets Hook.marker <:+: [0x7F, 0x45, 0x4C, 0x46, 0xFF] := by
    rw [← Text.occursIn_iff_isInfix]
    decide +kernel
  refine ⟨by decide +kernel, hforeign, by decide +kernel, by decide +kernel, ?_, ?_⟩
  · decide +kernel
  · decide +kernel

/-! ## After a reported installation -/

/-- Git runs the hook: its path leads to a file with the marker that everybody may execute. -/
def HookRuns (h : Host) (hooks : Path) : Prop :=
  ∃ node content mode, h.entry (hooks.child Hook.name) = .ok (.file node content mode) ∧
    IsText content true ∧ mode &&& 0o111 = 0o111

theorem hookRuns_iff (he : h.entry (hooks.child Hook.name) = .ok (.file node content mode))
    (htext : IsText content true) : h.HookRuns hooks ↔ mode &&& 0o111 = 0o111 := by
  constructor
  · rintro ⟨k, c, m, he', -, hmode⟩
    obtain ⟨-, -, rfl⟩ := Entry.file.inj (Except.ok.inj (he.symm.trans he'))
    exact hmode
  · exact fun hmode => ⟨node, content, mode, he, htext, hmode⟩

/-- **What a reported installation is worth.** The path of the hook leads to a file with the marker.
Where it was installed, that is the executable script, which git runs. Where it was there already,
the file is as it was before, and git runs it if everybody may execute it. -/
theorem reported_hook {force : Bool} {i : Installation}
    (hi : h.installHook hooks force = (.ok i, h')) :
    ∃ d node content mode, h'.locate true (hooks.child Hook.name) = .ok d ∧
      h'.tree.get? d = some (.file node content mode) ∧ IsText content true ∧
      ((∃ b, i = .installed (hooks.child Hook.name) b) ∧ content = scriptOctets ∧
          mode = Entry.scriptMode ∧ h'.HookRuns hooks ∨
        i = .already (hooks.child Hook.name) ∧ h.tree.get? d = some (.file node content mode) ∧
          (h'.HookRuns hooks ↔ mode &&& 0o111 = 0o111)) := by
  have hmadeFor := makePath_madeFor h hooks
  rcases installHook_ok hi with ⟨hinstalled, node, he⟩ | ⟨halready, hmake, hown⟩
  · obtain ⟨d, hl, hd⟩ := entry_eq_ok_iff.1 he
    exact ⟨d, node, scriptOctets, Entry.scriptMode, hl, hd, isText_script,
      .inl ⟨hinstalled, rfl, rfl, (hookRuns_iff he isText_script).2 (by decide)⟩⟩
  · rw [hmake] at hmadeFor
    obtain ⟨node, content, mode, he, htext⟩ := isOwnHook_eq_ok_iff.1 hown
    obtain ⟨d, hl, hd⟩ := entry_eq_ok_iff.1 he
    exact ⟨d, node, content, mode, hl, hd, htext,
      .inr ⟨halready, hmadeFor.get?_of_made (by simp) hd, hookRuns_iff he htext⟩⟩

/-- Where a foreign hook gave way, git runs the new one. -/
theorem reported_hook_makeProject :
    makeProject.installHook ⟨"hooks"⟩ true = (.ok (.installed ⟨"hooks/pre-commit"⟩
        (some ⟨"hooks/pre-commit.bak"⟩)), forcedProject) ∧
      forcedProject.HookRuns ⟨"hooks"⟩ := by
  have hi : makeProject.installHook ⟨"hooks"⟩ true = (.ok (.installed ⟨"hooks/pre-commit"⟩
      (some ⟨"hooks/pre-commit.bak"⟩)), forcedProject) := by
    obtain ⟨hanswer, hhost⟩ := Prod.mk.inj perform_makeProject
    exact Prod.ext (HookReport.install.inj hanswer) hhost
  refine ⟨hi, ?_⟩
  obtain ⟨d, node, content, mode, -, -, -, ⟨-, -, -, hruns⟩ | ⟨hr, -⟩⟩ := reported_hook hi
  · exact hruns
  · cases hr

/-- A directory for hooks with a script of this program that nobody may execute. -/
def idleProject : Host :=
  ⟨.dir "hooks" (.file "pre-commit" 0 scriptOctets Entry.plainMode .empty) .empty, [], []⟩

/-- **A hook that git does not run is reported as installed**, forced or not, and stays so. -/
theorem idle_hook_reported :
    (∀ force, idleProject.installHook ⟨"hooks"⟩ force =
      (.ok (.already ⟨"hooks/pre-commit"⟩), idleProject)) ∧
      ¬ idleProject.HookRuns ⟨"hooks"⟩ := by
  have hnames : idleProject.NamesAt ⟨"hooks"⟩ ["hooks"] := namesAt_of_name (by decide) rfl
  have hfile : idleProject.tree.get? ["hooks", Hook.name] =
      some (.file 0 scriptOctets Entry.plainMode) := rfl
  have ho := isOwnHook_of_file hnames hfile isText_script
  constructor
  · intro force
    exact installHook_of_own (hnames.makePath ⟨_, rfl⟩) ho
  · have hfree : ∀ k g, idleProject.tree.get? ["hooks", Hook.name] ≠ some (.link k g) := by
      simp [hfile]
    have hl := hnames.locate isName_name hfree true
    rw [hookRuns_iff (entry_eq_ok_iff.2 ⟨_, hl, hfile⟩) isText_script]
    decide

end Host

end CommitGate

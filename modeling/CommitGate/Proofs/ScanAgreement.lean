import CommitGate.Cli.Program
import CommitGate.Proofs.Collect
import CommitGate.Proofs.RunEffects

/-!
# A scan and a run without tests

A scan collects, checks and reports by itself, and so does a run. Where the toolchain is not checked
and no tests are run, nothing else is left of a run, so that both say the same. They part only in
the last line, as a scan leaves it to its status to tell that the commit would be stopped.

A root that is a file is left out: a scan takes it as a project of one file, while a run lists it
first and fails.

Results:

* `effectiveConfig_error`: the exit status of a configuration that cannot be used.
* `scan_of_collected`, `run_of_no_tests`: the record of a scan, and of a run that neither looks for
  the tool nor runs the tests.
* `scan_agrees_with_run`: both fail with the same failure, or print the same report.
-/

namespace CommitGate

/-! ## Failures of the configuration -/

theorem error_of_bind {ε α β : Type} {x : Except ε α} {f : α → Except ε β} {e : ε}
    (h : (x >>= f) = .error e) : x = .error e ∨ ∃ a, x = .ok a ∧ f a = .error e := by
  cases x with
  | error e' => cases h; exact .inl rfl
  | ok a => exact .inr ⟨a, rfl, h⟩

namespace Config

theorem checkRule_error {i : Nat} {r : Rule} {e : Failure} (h : checkRule i r = .error e) :
    e.exitStatus = 78 := by
  unfold checkRule at h
  split at h
  · cases h; rfl
  · split at h
    · cases h; rfl
    · split at h
      · cases h; rfl
      · cases h

theorem checkRules_error {i : Nat} {rs : List Rule} {e : Failure} (h : checkRules i rs = .error e) :
    e.exitStatus = 78 := by
  induction rs generalizing i with
  | nil => cases h
  | cons r rs ih =>
    rcases error_of_bind h with hr | ⟨_, -, hrs⟩
    · exact checkRule_error hr
    · exact ih hrs

theorem checkTests_error {t : TestsConfig} {e : Failure} (h : checkTests t = .error e) :
    e.exitStatus = 78 := by
  unfold checkTests at h
  split at h
  · cases h; rfl
  · split at h
    · cases h
    · split at h
      · cases h
      · cases h; rfl

theorem checkEnvironment_error {c : EnvironmentConfig} {e : Failure}
    (h : checkEnvironment c = .error e) : e.exitStatus = 78 := by
  unfold checkEnvironment at h
  split at h
  · cases h
  · split at h
    · cases h; rfl
    · split at h
      · cases h
      · cases h; rfl

theorem validate_error {c : Config} {e : Failure} (h : c.validate = .error e) :
    e.exitStatus = 78 := by
  rcases error_of_bind h with hrules | ⟨_, -, h⟩
  · exact checkRules_error hrules
  · rcases error_of_bind h with htests | ⟨_, -, henvironment⟩
    · exact checkTests_error htests
    · exact checkEnvironment_error henvironment

theorem read_error [Toml.Diagnosis] {text : String} {e : Failure} (h : read text = .error e) :
    e.exitStatus = 78 := by
  unfold read at h
  split at h
  · cases h; rfl
  · next c _ =>
    cases hv : c.validate with
    | ok _ => rw [hv] at h; cases h
    | error e' =>
      rw [hv] at h
      cases h
      exact validate_error hv

end Config

namespace Host

variable {h : Host} {e : Failure}

theorem configText_error {p : Path} (he : h.configText p = .error e) :
    e.exitStatus = 78 ∨ e.exitStatus = 1 := by
  unfold configText at he
  split at he
  · cases he
  · cases he; exact .inl rfl
  · cases he; exact .inr rfl

variable [Toml.Diagnosis]

theorem settledConfig_error {p : Path} (he : h.settledConfig p = .error e) :
    e.exitStatus = 78 ∨ e.exitStatus = 1 := by
  have hload : h.loadConfig p = .error e := by
    rcases error_of_bind he with hload | ⟨_, -, hpure⟩
    · exact hload
    · cases hpure
  rcases error_of_bind hload with htext | ⟨_, -, hread⟩
  · exact configText_error htext
  · exact .inl (Config.read_error hread)

/-- **A configuration that cannot be used ends the program with 78, or with 1 when its file cannot
be read.** -/
theorem effectiveConfig_error {given : Option Path} (he : h.effectiveConfig given = .error e) :
    e.exitStatus = 78 ∨ e.exitStatus = 1 := by
  unfold effectiveConfig at he
  split at he
  · exact settledConfig_error he
  · split at he
    · exact settledConfig_error he
    · cases he

omit [Toml.Diagnosis] in
/-- A root that is a directory can be listed and collected; one that leads nowhere can be neither,
for the same reason. -/
theorem listed_or_missing {p : Path} (s : Selection)
    (fits : h.isDirectory p = true ∨ h.pathExists p = false) :
    (∃ inner files, h.listing p = .ok inner ∧ h.collect s p = .ok files) ∨
      ∃ fault : Fault, h.listing p = .error fault ∧
        h.collect s p = .error (.walk p [fault.text]) := by
  rcases fits with hdir | hmissing
  · unfold isDirectory at hdir
    split at hdir
    · next inner hentry =>
      obtain ⟨files, hfiles⟩ := collect_of_pathExists (s := s) (pathExists_iff.2 ⟨_, hentry⟩)
      refine .inl ⟨inner, files, ?_, hfiles⟩
      rw [listing, hentry]
      rfl
    · cases hdir
  · obtain ⟨fault, hentry⟩ := entry_of_not_pathExists hmissing
    refine .inr ⟨fault, ?_, collect_of_entry_error hentry⟩
    rw [listing, hentry]
    rfl

end Host

/-! ## The two records -/

namespace Config

variable {σ : Type} {s : Surroundings σ} {w : σ} {c : Config}

theorem scan_of_uncollected {e : Failure}
    (h : (s.host w).collect c.project.selection c.project.root = .error e) :
    c.scan.run s w = ⟨[], w, .error e⟩ := by
  unfold scan
  rw [Act.run_host_bind, Act.run_bind_of_error (e := e) h]
  rfl

/-- A scan says of the files what a run says of them. -/
theorem scan_of_collected {files : FileSet}
    (h : (s.host w).collect c.project.selection c.project.root = .ok files) :
    c.scan.run s w = ⟨c.findingsSaid files, w, .ok (c.scanStatus (files.checkAll c.rules))⟩ := by
  unfold scan
  rw [Act.run_host_bind, Act.run_bind_of_ok (x := files) h]
  simp only [Act.run_lift, List.nil_append]
  rw [Act.run_say_bind, Act.run_bind_of_ok (x := ()) (by rw [Act.run_forM_say]), Act.run_forM_say]
  simp [findingsSaid, foundLine]

/-- The errors that a scan counts are those in the counts of a run. -/
theorem scanStatus_eq (c : Config) (findings : List Finding) :
    c.scanStatus findings =
      if c.policy.blockOnError && decide (0 < (FindingCounts.tally findings).errors)
      then 1 else 0 := by
  simp only [scanStatus, FindingCounts.tally_eq, List.countP_eq_length_filter]

/-- The outcome of a run in which nobody looked for the tool and no tests were run. -/
def untestedOutcome (c : Config) (files : FileSet) : RunOutcome :=
  c.outcomeOf .unchecked files (.skipped .disabled)

/-- Such a run says what a scan says, and then the verdict. -/
theorem run_of_no_tests (unchecked : c.environment.check = false)
    (untested : c.tests.enabled = false) {inner : Tree}
    (listed : (s.host w).listing c.project.root = .ok inner) {files : FileSet}
    (collected : (s.host w).collect c.project.selection c.project.root = .ok files) :
    c.run.run s w = ⟨c.findingsSaid files ++ verdictSaid (c.untestedOutcome files), w,
      .ok (c.untestedOutcome files)⟩ := by
  have hdetect := EnvironmentConfig.detect_run_of_not_check unchecked c.project.root s w
  have hgate : (c.gateOn (s.host w)).run.run s w = ⟨[], w, .ok (.skipped .disabled)⟩ := by
    rw [Gate.run_disabled untested, Act.run_pure]
  rw [run_of_collected listed hdetect rfl collected, hgate]
  rfl

/-- The status of such a run is that of a scan. -/
theorem exitStatus_untestedOutcome (c : Config) (files : FileSet) :
    (c.untestedOutcome files).exitStatus = c.scanStatus (files.checkAll c.rules) := by
  have hblocked : (c.untestedOutcome files).isBlocked = (c.policy.blockOnError &&
      decide (0 < (FindingCounts.tally (files.checkAll c.rules)).errors)) := rfl
  have hsuccess : (c.untestedOutcome files).success = !(c.untestedOutcome files).isBlocked := by
    unfold RunOutcome.success
    exact Bool.true_and _
  rw [RunOutcome.exitStatus, scanStatus_eq, hsuccess, hblocked]
  cases c.policy.blockOnError && decide (0 < (FindingCounts.tally (files.checkAll c.rules)).errors)
    <;> rfl

/-- The line after the report of such a run stands there just when its status is 1. -/
theorem text_untestedVerdict (colors : Bool) (c : Config) (files : FileSet) :
    Record.text colors (verdictSaid (c.untestedOutcome files)) =
      if c.scanStatus (files.checkAll c.rules) = 1
      then blockedText colors (FindingCounts.tally (files.checkAll c.rules)).errors else "" := by
  have hstatus : c.scanStatus (files.checkAll c.rules) = 1 ↔ c.policy.blockOnError = true ∧
      0 < (FindingCounts.tally (files.checkAll c.rules)).errors := by
    simp [scanStatus_eq]
  simp only [hstatus]
  exact text_verdictAfter colors c .unchecked files (.skipped .disabled)

end Config

/-! ## The two commands -/

namespace Cli

theorem ofTrace_error {σ α : Type} {colors : Bool} {status : α → Nat} {w : σ} {f : Failure} :
    Output.ofTrace colors status (⟨[], w, .error f⟩ : Trace σ α) = .ofFailure f := rfl

theorem ofTrace_ok {σ α : Type} {colors : Bool} {status : α → Nat} {es : List Event} {w : σ}
    {a : α} :
    Output.ofTrace colors status (⟨es, w, .ok a⟩ : Trace σ α) =
      { standard := Record.text colors es, status := status a } := rfl

variable {h : Host} {file : Option Path} {c : Config}

/-- What a scan leaves behind, when its configuration can be used. -/
theorem scanProject_of_config [Toml.Diagnosis] (root : Option Path) (colors : Bool)
    (given : h.effectiveConfig file = .ok c) :
    scanProject colors file root false h =
      .ofTrace colors id ((withRoot root c).scan.run (surroundings none none) h) := by
  simp only [scanProject, given, Bool.false_eq_true, if_false]

/-- What a run without tests leaves behind, when its configuration can be used. -/
theorem runGate_of_config [Toml.Diagnosis] (root : Option Path) (colors yes : Bool)
    (unskipped : h.value? skipVariable ≠ some ↑"1")
    (given : h.effectiveConfig file = .ok c) :
    ∃ s : Surroundings Host, s.host = id ∧ (runGate colors file ⟨root, yes, true⟩ h).1 =
      .ofTrace colors RunOutcome.exitStatus
        (((⟨root, yes, true⟩ : RunOptions).adjust c).run.run s h) := by
  refine ⟨surroundings (if yes then some Answer.yes else none)
    ((⟨root, yes, true⟩ : RunOptions).adjust c).tests.timeLimit?, rfl, ?_⟩
  simp only [runGate, unskipped, given, if_false]

/-- **A scan agrees with a run without tests.** When the toolchain is not checked and the root is a
directory or leads nowhere, both commands fail with the same failure, which ends the program with
74, 78 or 1, or both come to the same status. Then a scan prints the report, and a run prints the
report and after it, just when the status is 1, the line that the commit is blocked. -/
theorem scan_agrees_with_run [Toml.Diagnosis] (i : Invocation) (root : Option Path) (yes : Bool)
    (h : Host) (unskipped : h.value? skipVariable ≠ some ↑"1")
    (fits : ∀ c, h.effectiveConfig i.config = .ok c → c.environment.check = false ∧
      (h.isDirectory (root.getD c.project.root) = true ∨
        h.pathExists (root.getD c.project.root) = false)) :
    let scan : Output := ({ i with command := some (.scan root false) }.perform h).1
    let run : Output := ({ i with command := some (.run ⟨root, yes, true⟩) }.perform h).1
    (∃ f : Failure, scan = .ofFailure f ∧ run = .ofFailure f ∧
      (f.exitStatus = 74 ∨ f.exitStatus = 78 ∨ f.exitStatus = 1)) ∨
    ∃ c files, h.effectiveConfig i.config = .ok c ∧
      h.collect c.project.selection (root.getD c.project.root) = .ok files ∧
      scan.standard = Config.reportText (i.color.isOn h) c files ∧
      run.standard = scan.standard ++
        (if scan.status = 1
          then Config.blockedText (i.color.isOn h)
            (FindingCounts.tally (files.checkAll c.rules)).errors
          else "") ∧
      run.status = scan.status ∧ (scan.status = 0 ∨ scan.status = 1) ∧
      scan.errors = "" ∧ run.errors = "" := by
  intro scan run
  generalize hcolors : i.color.isOn h = colors
  have hscan : scan = scanProject colors i.config root false h := by rw [← hcolors]; rfl
  have hrun : run = (runGate colors i.config ⟨root, yes, true⟩ h).1 := by rw [← hcolors]; rfl
  rw [hscan, hrun]
  cases given : h.effectiveConfig i.config with
  | error f =>
    left
    refine ⟨f, by rw [scanProject, given], ?_, ?_⟩
    · simp only [runGate, unskipped, given, if_false]
    · exact .inr (Host.effectiveConfig_error given)
  | ok c =>
    obtain ⟨unchecked, hroot⟩ := fits c given
    obtain ⟨s, hs, hrunGate⟩ := runGate_of_config root colors yes unskipped given
    rw [scanProject_of_config root colors given, hrunGate]
    have hhost : s.host h = h := congrFun hs h
    rcases Host.listed_or_missing c.project.selection hroot with
      ⟨inner, files, listed, collected⟩ | ⟨fault, unlisted, uncollected⟩
    · right
      have untested : ((⟨root, yes, true⟩ : RunOptions).adjust c).tests.enabled = false :=
        Bool.and_false _
      have hscanned := Config.scan_of_collected (c := withRoot root c)
        (s := surroundings none none) (w := h) collected
      have hran := Config.run_of_no_tests (c := (⟨root, yes, true⟩ : RunOptions).adjust c) (s := s)
        (w := h) unchecked untested (hhost.symm ▸ listed) (hhost.symm ▸ collected)
      rw [hscanned, hran, ofTrace_ok, ofTrace_ok]
      refine ⟨c, files, rfl, collected, Config.text_findingsSaid _ _ _, ?_, ?_, ?_, rfl, rfl⟩
      · rw [Record.text_append, Config.text_untestedVerdict]
        rfl
      · exact Config.exitStatus_untestedOutcome _ _
      · show Config.scanStatus _ _ = 0 ∨ Config.scanStatus _ _ = 1
        rw [Config.scanStatus_eq]
        split
        · exact .inr rfl
        · exact .inl rfl
    · left
      have hscanned := Config.scan_of_uncollected (c := withRoot root c)
        (s := surroundings none none) (w := h) uncollected
      have hran := Config.run_of_unlisted (c := (⟨root, yes, true⟩ : RunOptions).adjust c) (s := s)
        (w := h) (hhost.symm ▸ unlisted)
      rw [hscanned, hran, ofTrace_error, ofTrace_error]
      exact ⟨_, rfl, rfl, .inl rfl⟩

attribute [local instance] Toml.Diagnosis.silent

/-- A project with an open merge, and a configuration that lets errors block. -/
def mergedProject : Host :=
  ⟨.file Config.fileName 0
      (Text.encode "[environment]\ncheck = false\n[policy]\nblock_on_error = true\n".toList)
      Entry.plainMode
    (.file "a.php" 1 (Text.encode "<<<<<<< HEAD".toList) Entry.plainMode .empty), [], []⟩

/-- The configuration of that project. -/
def mergedConfig : Config :=
  { project := { root := ⟨"/."⟩ }, environment := { check := false }, policy := ⟨true⟩ }

/-- The run says that the commit is blocked, and the scan leaves that to its status. -/
theorem scan_agrees_with_run_mergedProject :
    (({ command := some (.scan none false) } : Invocation).perform mergedProject).1.status = 1 ∧
      (({ command := some (.run ⟨none, false, true⟩) } : Invocation).perform
          mergedProject).1.standard =
        (({ command := some (.scan none false) } : Invocation).perform mergedProject).1.standard ++
          Config.blockedText false 1 := by
  have given : mergedProject.effectiveConfig none = .ok mergedConfig := by decide +kernel
  have directory : mergedProject.isDirectory ⟨"/."⟩ = true := by decide +kernel
  have fits : ∀ c, mergedProject.effectiveConfig none = .ok c → c.environment.check = false ∧
      (mergedProject.isDirectory ((none : Option Path).getD c.project.root) = true ∨
        mergedProject.pathExists ((none : Option Path).getD c.project.root) = false) := by
    intro c hc
    rw [given] at hc
    cases hc
    exact ⟨rfl, .inl directory⟩
  have status :
      (({ command := some (.scan none false) } : Invocation).perform mergedProject).1.status =
        1 := by
    decide +kernel
  have errors : (mergedProject.collect mergedConfig.project.selection mergedConfig.project.root).map
      (fun files => (FindingCounts.tally (files.checkAll mergedConfig.rules)).errors) = .ok 1 := by
    decide +kernel
  refine ⟨status, ?_⟩
  have agreed := scan_agrees_with_run {} none false mergedProject (by decide) fits
  dsimp only at agreed
  rcases agreed with ⟨f, hscan, -⟩ | ⟨c, files, hc, collected, -, hrun, -⟩
  · have printed :
        (({ command := some (.scan none false) } : Invocation).perform mergedProject).1.standard ≠
          "" := by
      decide +kernel
    exact absurd (congrArg Output.standard hscan) printed
  · obtain rfl : mergedConfig = c := Except.ok.inj (given.symm.trans hc)
    have one : (FindingCounts.tally (files.checkAll mergedConfig.rules)).errors = 1 := by
      have : mergedProject.collect mergedConfig.project.selection mergedConfig.project.root =
        .ok files := collected
      rw [this] at errors
      exact Except.ok.inj errors
    rw [if_pos status, one] at hrun
    exact hrun

end Cli

end CommitGate

import CommitGate.Cli.Output
import CommitGate.Proofs.FileSet
import CommitGate.Proofs.Gate
import CommitGate.Run
import CommitGate.Script

/-!
# The verdict of a run

A run that returns has either passed the project over, because the environment does not do, or
checked it. Then files were collected where the check of the environment left the world, the
findings are those of all rules in all of these files, and the gate was driven whatever the findings
are. The verdict is what the tests and the findings say together.

Results:

* `errors_pos_iff`: there are error findings exactly when a pattern of an error rule stands in a
  file.
* `Config.run_course`: what a run that returns has done.
* `Config.recorded_run`: the record of a run tells the world it leaves behind.
* `Config.verdict_exact`: a commit is stopped by failing tests or blocking findings in a supported
  environment, by nothing else, and by every failure.
-/

namespace CommitGate

variable {σ : Type} {s : Surroundings σ} {w : σ}

/-! ## The environment -/

namespace EnvironmentConfig

theorem recorded_detect (e : EnvironmentConfig) (d : Path) :
    (e.detect d : Act σ Environment).Recorded := by
  unfold detect
  split
  · exact Act.recorded_pure _
  · refine Act.recorded_host.bind fun h => ?_
    split
    · exact Act.recorded_pure _
    · refine (Act.recorded_call? _ _).bind fun r => ?_
      split <;> exact Act.recorded_pure _

theorem detect_run_of_not_check {e : EnvironmentConfig} (h : e.check = false) (d : Path)
    (s : Surroundings σ) (w : σ) : (e.detect d).run s w = ⟨[], w, .ok .unchecked⟩ := by
  simp [detect, h]

theorem detect_run_of_missing {e : EnvironmentConfig} (check : e.check = true)
    (missing : (s.host w).findProgram? e.tool = none) (d : Path) :
    (e.detect d).run s w = ⟨[], w, .ok (.unsupported (.toolMissing e.tool))⟩ := by
  unfold detect
  simp only [check, Bool.not_true, Bool.false_eq_true, if_false]
  rw [Act.run_host_bind, missing]
  rfl

/-- What the result of the version command tells, or that there is none. -/
def judge (e : EnvironmentConfig) : Option CommandResult → Environment
  | none => .unsupported (.versionUnknown e.tool)
  | some r => e.evaluate ("\n".intercalate r.output)

/-- A tool that is there is asked for its version. -/
theorem detect_run_of_present {e : EnvironmentConfig} (check : e.check = true)
    (present : ((s.host w).findProgram? e.tool).isSome = true) (d : Path) :
    (e.detect d).run s w = ⟨[.called e.versionCommand d], (s.command e.versionCommand d w).2,
      .ok (e.judge (s.command e.versionCommand d w).1.toOption)⟩ := by
  obtain ⟨program, hprogram⟩ := Option.isSome_iff_exists.1 present
  unfold detect
  simp only [check, Bool.not_true, Bool.false_eq_true, if_false]
  rw [Act.run_host_bind, hprogram]
  simp only [Option.isNone_some, Bool.false_eq_true, if_false]
  rw [Act.run_bind_of_ok (x := (s.command e.versionCommand d w).1.toOption) rfl]
  cases (s.command e.versionCommand d w).1.toOption <;> rfl

/-- Nothing is asked while the tool is looked for. -/
theorem not_asked_detect (e : EnvironmentConfig) (d : Path) (s : Surroundings σ) (w : σ) :
    .asked ∉ ((e.detect d).run s w).events := by
  cases check : e.check with
  | false =>
    rw [detect_run_of_not_check check]
    exact List.not_mem_nil
  | true =>
    cases hfound : (s.host w).findProgram? e.tool with
    | none =>
      rw [detect_run_of_missing check hfound]
      exact List.not_mem_nil
    | some p =>
      rw [detect_run_of_present check (by rw [hfound]; rfl)]
      simp

end EnvironmentConfig

/-! ## The findings -/

/-- A pattern of an error rule stands in a file. -/
def Config.HasErrorHit (c : Config) (files : FileSet) : Prop :=
  ∃ file ∈ files.entries, ∃ rule ∈ c.rules, rule.severity = .error ∧
    ∃ pattern ∈ rule.patterns, pattern.toList <:+: file.2.toList

/-- **There are error findings exactly when a pattern of an error rule stands in a file.** -/
theorem errors_pos_iff (c : Config) (files : FileSet) :
    0 < (FindingCounts.tally (files.checkAll c.rules)).errors ↔ c.HasErrorHit files := by
  simp only [FindingCounts.tally_eq, List.countP_pos_iff, FileSet.mem_checkAll, decide_eq_true_eq,
    Config.HasErrorHit]
  constructor
  · rintro ⟨f, ⟨hrule, content, hfile, hmatch⟩, herror⟩
    exact ⟨(f.path, content), hfile, f.rule, hrule, herror,
      (FileSet.exists_firstMatch?_iff f.rule content).1 ⟨_, hmatch⟩⟩
  · rintro ⟨file, hfile, rule, hrule, herror, hpattern⟩
    obtain ⟨pattern, hmatch⟩ := (FileSet.exists_firstMatch?_iff rule file.2).2 hpattern
    exact ⟨⟨file.1, rule, pattern⟩, ⟨hrule, file.2, hfile, hmatch⟩, herror⟩

/-! ## The course of a run -/

namespace Config

variable {c : Config}

/-- The gate of a project on a host. -/
def gateOn (c : Config) (h : Host) : Gate :=
  ⟨c.tests, c.project.root, h.projectName c.project.root⟩

/-- What is said about the files and their findings. -/
def findingsSaid (c : Config) (files : FileSet) : List Event :=
  .said (foundLine files) :: (files.checkAll c.rules).map fun f => .said f.emission

/-- The outcome of a run that checked some files. -/
def outcomeOf (c : Config) (environment : Environment) (files : FileSet) (gate : GateOutcome) :
    RunOutcome :=
  ⟨environment, files.size, .tally (files.checkAll c.rules), some gate, c.policy.blockOnError⟩

/-- What is said at the end of a run, when findings stop the commit. -/
def verdictSaid (o : RunOutcome) : List Event :=
  if o.isBlocked then [.said (blockedLine o.findings.errors)] else []

/-- What a run has done that returns, from the world in which the environment was detected. -/
inductive Course (c : Config) (s : Surroundings σ) (w : σ) :
    Environment → List Event → RunOutcome → Prop where
  | skipped (reason : Unsupported) :
      Course c s w (.unsupported reason)
        [.said (.line (reason.text ++ " (skipping pre-commit checks)") .warning)]
        (.skipped (.unsupported reason))
  | checked {environment : Environment} (supported : environment.isSupported = true)
      {files : FileSet}
      (collected : (s.host w).collect c.project.selection c.project.root = .ok files)
      {during : List Event}
      {gate : GateOutcome} (driven : (c.gateOn (s.host w)).Ending s w during (.ok gate)) :
      Course c s w environment
        (c.findingsSaid files ++ (during ++ verdictSaid (c.outcomeOf environment files gate)))
        (c.outcomeOf environment files gate)

theorem reportFindings_run {files : FileSet}
    (h : (s.host w).collect c.project.selection c.project.root = .ok files) :
    c.reportFindings.run s w = ⟨c.findingsSaid files, w, .ok (files, files.checkAll c.rules)⟩ := by
  unfold reportFindings
  rw [Act.run_host_bind, Act.run_bind_of_ok (x := files) h]
  simp only [Act.run_lift, List.nil_append]
  rw [Act.run_say_bind, Act.run_bind_of_ok (x := ()) (by rw [Act.run_forM_say]), Act.run_forM_say]
  simp [findingsSaid]

theorem exists_collected {x : FileSet × List Finding}
    (h : (c.reportFindings.run s w).result = .ok x) :
    ∃ files, (s.host w).collect c.project.selection c.project.root = .ok files := by
  unfold reportFindings at h
  rw [Act.run_host_bind] at h
  obtain ⟨files, collected, -⟩ := Act.exists_of_run_bind h
  exact ⟨files, collected⟩

/-- The end of a run, after the gate. -/
def conclude (c : Config) (environment : Environment) (files : FileSet) (gate : GateOutcome) :
    Act σ RunOutcome := do
  let outcome := c.outcomeOf environment files gate
  if outcome.isBlocked then Act.say (blockedLine outcome.findings.errors)
  return outcome

theorem conclude_run (c : Config) (environment : Environment) (files : FileSet) (gate : GateOutcome)
    (s : Surroundings σ) (w : σ) :
    (c.conclude environment files gate).run s w =
      ⟨verdictSaid (c.outcomeOf environment files gate), w,
        .ok (c.outcomeOf environment files gate)⟩ := by
  unfold conclude verdictSaid
  cases h : (c.outcomeOf environment files gate).isBlocked
  · simp only [h, Bool.false_eq_true, if_false]
    rfl
  · simp only [h, if_true]
    rfl

/-- Where the files are collected, the gate is driven, whatever is found in them. -/
theorem runChecks_run {files : FileSet}
    (h : (s.host w).collect c.project.selection c.project.root = .ok files)
    (environment : Environment) :
    (c.runChecks environment).run s w =
      let t := ((c.gateOn (s.host w)).run >>= c.conclude environment files).run s w
      ⟨c.findingsSaid files ++ t.events, t.world, t.result⟩ := by
  have hfound := reportFindings_run h
  unfold runChecks
  rw [Act.run_bind_of_ok (x := (files, files.checkAll c.rules)) (by rw [hfound]), hfound]
  rfl

theorem runChecks_course {environment : Environment} (supported : environment.isSupported = true)
    {o : RunOutcome} (h : ((c.runChecks environment).run s w).result = .ok o) :
    Course c s w environment ((c.runChecks environment).run s w).events o := by
  obtain ⟨x, hx, -⟩ := Act.exists_of_run_bind h
  obtain ⟨files, collected⟩ := exists_collected hx
  rw [runChecks_run collected] at h ⊢
  obtain ⟨gate, hgate, hconclude⟩ := Act.exists_of_run_bind h
  have driven := (c.gateOn (s.host w)).run_ending s w
  rw [hgate] at driven
  rw [conclude_run] at hconclude
  cases hconclude
  simp only [Act.run_bind_of_ok hgate, conclude_run]
  exact .checked supported collected driven

/-- What a run does in an environment. -/
def proceed (c : Config) : Environment → Act σ RunOutcome
  | .unsupported reason => do
    Act.say (.line (reason.text ++ " (skipping pre-commit checks)") .warning)
    return .skipped (.unsupported reason)
  | environment => c.runChecks environment

theorem proceed_course {environment : Environment} {o : RunOutcome}
    (h : ((c.proceed environment).run s w).result = .ok o) :
    Course c s w environment ((c.proceed environment).run s w).events o := by
  cases environment with
  | unsupported reason =>
    cases h
    exact .skipped reason
  | unchecked => exact runChecks_course rfl h
  | supported version => exact runChecks_course rfl h

theorem Course.environment_eq {environment : Environment} {events : List Event} {o : RunOutcome}
    (h : Course c s w environment events o) : o.environment = environment := by
  cases h <;> rfl

/-- **What a run that returns has done.** -/
theorem run_course {o : RunOutcome} (h : (c.run.run s w).result = .ok o) :
    ∃ seen world later, (c.environment.detect c.project.root).run s w =
      ⟨seen, world, .ok o.environment⟩ ∧
      (c.run.run s w).events = seen ++ later ∧ Course c s world o.environment later o := by
  unfold run at h ⊢
  rw [Act.run_host_bind] at h ⊢
  split at h
  · cases h
  · have h' : ((c.environment.detect c.project.root >>= c.proceed).run s w).result = .ok o := h
    obtain ⟨environment, hdetect, hproceed⟩ := Act.exists_of_run_bind h'
    have hcourse := proceed_course hproceed
    refine ⟨((c.environment.detect c.project.root).run s w).events,
      ((c.environment.detect c.project.root).run s w).world,
      ((c.proceed environment).run s ((c.environment.detect c.project.root).run s w).world).events,
      ?_, ?_, ?_⟩
    · rw [hcourse.environment_eq, ← hdetect]
    · show ((c.environment.detect c.project.root >>= c.proceed).run s w).events = _
      rw [Act.run_bind_of_ok hdetect]
    · rw [hcourse.environment_eq]
      exact hcourse

/-- **The record of a run tells the world it leaves behind.** -/
theorem recorded_run (c : Config) : (c.run : Act σ RunOutcome).Recorded := by
  have findings : (c.reportFindings : Act σ (FileSet × List Finding)).Recorded := by
    unfold reportFindings
    refine Act.recorded_host.bind fun h => (Act.recorded_lift _).bind fun files => ?_
    refine (Act.recorded_say _).bind fun _ => (Act.recorded_forM_say _ _).bind fun _ => ?_
    exact Act.recorded_pure _
  have checks (environment : Environment) :
      (c.runChecks environment : Act σ RunOutcome).Recorded := by
    unfold runChecks
    refine findings.bind fun x => Act.recorded_host.bind fun h =>
      (Gate.recorded_run _).bind fun gate => ?_
    dsimp only
    split
    · exact (Act.recorded_say _).bind fun _ => Act.recorded_pure _
    · exact Act.recorded_pure _
  unfold run
  refine Act.recorded_host.bind fun h => ?_
  split
  · exact Act.recorded_fail _
  · refine (c.environment.recorded_detect _).bind fun environment => ?_
    split
    · exact (Act.recorded_say _).bind fun _ => Act.recorded_pure _
    · exact checks _

/-! ## The verdict -/

/-- The tests were called on an answer and ended with the result. -/
def TestsEnded (c : Config) (s : Surroundings σ) (w : σ) (events : List Event)
    (r : CommandResult) : Prop :=
  s.CalledAfterAsking c.tests.commandLine c.project.root r w events

/-- Findings stop the commit: the policy is set, and a pattern of an error rule stands in a file
that is collected. -/
def Blocks (c : Config) (h : Host) : Prop :=
  c.policy.blockOnError = true ∧
    ∃ files, h.collect c.project.selection c.project.root = .ok files ∧ c.HasErrorHit files

theorem blocks_iff {h : Host} {files : FileSet}
    (collected : h.collect c.project.selection c.project.root = .ok files) :
    c.Blocks h ↔
      c.policy.blockOnError = true ∧ 0 < (FindingCounts.tally (files.checkAll c.rules)).errors := by
  unfold Blocks
  rw [errors_pos_iff]
  constructor
  · rintro ⟨policy, files', collected', hit⟩
    rw [collected] at collected'
    cases collected'
    exact ⟨policy, hit⟩
  · rintro ⟨policy, hit⟩
    exact ⟨policy, files, collected, hit⟩

/-- A run that checked files is stopped by the gate or by the findings. -/
theorem success_outcomeOf {h : Host} {files : FileSet}
    (collected : h.collect c.project.selection c.project.root = .ok files)
    (environment : Environment) (gate : GateOutcome) :
    (c.outcomeOf environment files gate).success = false ↔
      (∃ r, gate = .failed r) ∨ c.Blocks h := by
  rw [RunOutcome.success_eq_false_iff, blocks_iff collected]
  simp only [outcomeOf, Option.some.injEq]

theorem not_asked_findingsSaid (c : Config) (files : FileSet) : .asked ∉ c.findingsSaid files := by
  simp [findingsSaid]

theorem after_findingsSaid (c : Config) (s : Surroundings σ) (w : σ) (files : FileSet) :
    s.after w (c.findingsSaid files) = w :=
  s.after_said w Finding.emission (files.checkAll c.rules)

theorem testsEnded_iff {seen during : List Event} {files : FileSet} {o : RunOutcome}
    {r : CommandResult} (hseen : .asked ∉ seen) :
    c.TestsEnded s w (seen ++ (c.findingsSaid files ++ (during ++ verdictSaid o))) r ↔
      s.CalledAfterAsking c.tests.commandLine c.project.root r (s.after w seen) during := by
  unfold TestsEnded verdictSaid
  rw [Surroundings.calledAfterAsking_append hseen,
    Surroundings.calledAfterAsking_append (not_asked_findingsSaid c files), after_findingsSaid]
  split
  · exact Surroundings.calledAfterAsking_append_left (by simp) (by simp)
  · rw [List.append_nil]

namespace Course

variable {environment : Environment} {later : List Event} {o : RunOutcome}

/-- The commit is stopped by tests that were run and failed, or by findings that block. -/
theorem success_iff {seen : List Event} (hcourse : Course c s (s.after w seen) environment later o)
    (hseen : .asked ∉ seen) :
    o.success = false ↔ environment.isSupported = true ∧
      ((∃ r, c.TestsEnded s w (seen ++ later) r ∧ r.exitCode ≠ 0) ∨
        c.Blocks (s.host (s.after w seen))) := by
  cases hcourse with
  | skipped reason =>
    simp [RunOutcome.skipped, RunOutcome.success, RunOutcome.isBlocked, Environment.isSupported]
  | @checked environment supported files collected during gate driven =>
    rw [success_outcomeOf collected environment gate]
    simp only [testsEnded_iff hseen, supported, true_and]
    exact or_congr (exists_congr fun r => driven.failed_iff r) Iff.rfl

theorem of_not_supported (hcourse : Course c s w environment later o)
    (h : environment.isSupported = false) :
    .asked ∉ later ∧ o.gate = none := by
  cases hcourse with
  | skipped reason => exact ⟨by simp, rfl⟩
  | checked supported =>
    rw [supported] at h
    cases h

/-- The gate is driven, whatever is found, and the findings alone decide when it does not fail. -/
theorem of_supported (hcourse : Course c s w environment later o)
    (h : environment.isSupported = true) :
    ∃ gate before during after, o.gate = some gate ∧ later = before ++ during ++ after ∧
      (c.gateOn (s.host w)).Ending s (s.after w before) during (.ok gate) ∧
      (gate.isFailure = false → (o.success = false ↔ c.Blocks (s.host w))) := by
  cases hcourse with
  | skipped reason => cases h
  | @checked environment supported files collected during gate driven =>
    refine ⟨gate, c.findingsSaid files, during, verdictSaid (c.outcomeOf environment files gate),
      rfl, by rw [List.append_assoc], ?_, ?_⟩
    · rw [after_findingsSaid]
      exact driven
    · intro passed
      rw [success_outcomeOf collected environment gate]
      constructor
      · rintro (⟨r, rfl⟩ | hblocks)
        · cases passed
        · exact hblocks
      · exact .inr

end Course

/-- **The verdict of a run is exact.** A run that returns has the environment that was detected. Its
commit is stopped exactly when this environment does and the tests were run and ended with another
code than 0, or the policy is set and a pattern of an error rule stands in a collected file. Where
the environment does not do, nothing is asked and there is no gate; everywhere else the gate is
driven, whatever is found, and when it does not fail the findings alone decide. A run that fails has
an exit status between 1 and 255. -/
theorem verdict_exact (c : Config) (s : Surroundings σ) (w : σ) (colors : Bool) :
    let t := c.run.run s w
    let detected := (c.environment.detect c.project.root).run s w
    let h := s.host detected.world
    (∀ o, t.result = .ok o →
      detected.result = .ok o.environment ∧
      (o.success = false ↔ o.environment.isSupported = true ∧
        ((∃ r, c.TestsEnded s w t.events r ∧ r.exitCode ≠ 0) ∨ c.Blocks h)) ∧
      (o.environment.isSupported = false → .asked ∉ t.events ∧ o.gate = none) ∧
      (o.environment.isSupported = true →
        ∃ gate before during after, o.gate = some gate ∧ t.events = before ++ during ++ after ∧
          (c.gateOn h).Ending s (s.after w before) during (.ok gate) ∧
          (gate.isFailure = false → (o.success = false ↔ c.Blocks h)))) ∧
    ∀ e, t.result = .error e →
      0 < (Cli.Output.ofTrace colors RunOutcome.exitStatus t).status ∧
        (Cli.Output.ofTrace colors RunOutcome.exitStatus t).status < 256 := by
  intro t detected h
  refine ⟨?_, ?_⟩
  · intro o ho
    obtain ⟨seen, world, later, hdetect, hevents, hcourse⟩ := run_course ho
    have hdetected : detected = ⟨seen, world, .ok o.environment⟩ := hdetect
    have hseen : .asked ∉ seen := by
      have := c.environment.not_asked_detect c.project.root s w
      rwa [hdetect] at this
    have hworld : world = s.after w seen := by
      have := c.environment.recorded_detect c.project.root s w
      rwa [hdetect] at this
    subst hworld
    have hh : h = s.host (s.after w seen) := congrArg (fun t => s.host t.world) hdetected
    rw [hdetected, show t.events = seen ++ later from hevents, hh]
    refine ⟨rfl, hcourse.success_iff hseen, ?_, ?_⟩
    · intro unsupported
      obtain ⟨hlater, hgate⟩ := hcourse.of_not_supported unsupported
      exact ⟨by simp [hseen, hlater], hgate⟩
    · intro supported
      obtain ⟨gate, before, during, after, hgate, hlater, driven, hpassed⟩ :=
        hcourse.of_supported supported
      refine ⟨gate, seen ++ before, during, after, hgate, by simp only [hlater, List.append_assoc],
        ?_, hpassed⟩
      rw [Surroundings.after_append]
      exact driven
  · intro e he
    rw [Cli.Output.status_ofTrace he]
    cases e <;> simp [Failure.exitStatus]

/-- A script whose project holds an open merge and whose tests pass. -/
def openMerge : Script :=
  ⟨⟨.file "a.php" 0 (Text.encode "<<<<<<< HEAD".toList) Entry.plainMode .empty, [], []⟩, [.ok "y"],
    [.ok ⟨["OK"], 0⟩]⟩

/-- A configuration that needs no tool and in which errors block. -/
def strict : Config :=
  { tests := { requireConfig := false }, environment := { check := false }, policy := ⟨true⟩ }

/-- Passed tests do not hide the findings. -/
theorem verdict_openMerge :
    (strict.run.run Script.surroundings openMerge).result =
      .ok ⟨.unchecked, 1, ⟨0, 1⟩, some .passed, true⟩ ∧
      strict.Blocks openMerge.host := by
  have h : (strict.run.run Script.surroundings openMerge).result =
      .ok ⟨.unchecked, 1, ⟨0, 1⟩, some .passed, true⟩ := by rfl
  have hverdict := (strict.verdict_exact Script.surroundings openMerge false).1 _ h
  obtain ⟨gate, before, during, after, hgate, -, -, hpassed⟩ := hverdict.2.2.2 rfl
  cases hgate
  exact ⟨h, (hpassed rfl).1 rfl⟩

end Config

end CommitGate

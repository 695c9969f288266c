import CommitGate.Collect
import CommitGate.Gate
import CommitGate.Text.Uppercase
import CommitGate.Toolchain

/-!
# A run

A run checks the toolchain, collects the files of the project, reports what the rules find in them
and drives the test gate, in that order. Its outcome decides whether the commit may go on.

Results:

* `success_eq_false_iff`: a commit is stopped by failing tests, or by error findings that block.
-/

namespace CommitGate

/-- What a run has found out (`RunOutcome`). -/
structure RunOutcome where
  environment : Environment
  files : Nat
  findings : FindingCounts
  /-- How the gate ended; nothing when the run was passed over before it. -/
  gate : Option GateOutcome
  blockOnError : Bool
deriving DecidableEq, Repr

namespace RunOutcome

/-- A run that was passed over (`RunOutcome::skipped`). -/
def skipped (environment : Environment) : RunOutcome :=
  ⟨environment, 0, ⟨0, 0⟩, none, false⟩

/-- Error findings stop the commit. -/
def isBlocked (o : RunOutcome) : Bool :=
  o.blockOnError && decide (0 < o.findings.errors)

/-- The commit may go on (`RunOutcome::success`). -/
def success (o : RunOutcome) : Bool :=
  !o.gate.any GateOutcome.isFailure && !o.isBlocked

/-- The exit status: 0 lets the commit go on, 1 stops it (`RunOutcome::exit_code`). -/
def exitStatus (o : RunOutcome) : Nat :=
  if o.success then 0 else 1

theorem success_eq_false_iff (o : RunOutcome) :
    o.success = false ↔
      (∃ r, o.gate = some (.failed r)) ∨ (o.blockOnError = true ∧ 0 < o.findings.errors) := by
  cases h : o.gate with
  | none => simp [success, isBlocked, h]
  | some g => cases g <;> simp [success, isBlocked, h, GateOutcome.isFailure]

end RunOutcome

/-- The name of a project in messages: that of its directory, with a capital (`project_name`). -/
def Host.projectName (h : Host) (root : Path) : String :=
  Text.capitalise <|
    match h.canonical root with
    | .ok place => (place.getLast?.map RawText.shown).getD "project"
    | .error _ => "project"

namespace ProjectConfig

/-- Which files are collected. -/
def selection (p : ProjectConfig) : Selection :=
  ⟨p.extensions, p.exclude⟩

end ProjectConfig

namespace Config

/-- The line that tells how many files there are. -/
def foundLine (files : FileSet) : Emission :=
  .line ("Found " ++ toString files.size ++ " project files") .plain

/-- The line that tells that findings stop the commit. -/
def blockedLine (errors : Nat) : Emission :=
  .line ("Commit blocked: " ++ toString errors ++ " error finding(s).") .error

/-- Collects the files and reports what the rules find in them (`Runner::collect` and
`Runner::scan`). -/
def reportFindings {σ : Type} (c : Config) : Act σ (FileSet × List Finding) := do
  let host ← Act.host
  let files ← Act.lift (host.collect c.project.selection c.project.root)
  Act.say (foundLine files)
  let findings := files.checkAll c.rules
  findings.forM fun f => Act.say f.emission
  return (files, findings)

/-- Runs everything that comes after the check of the toolchain. -/
def runChecks {σ : Type} (c : Config) (environment : Environment) : Act σ RunOutcome := do
  let (files, findings) ← c.reportFindings
  let host ← Act.host
  let gate ← Gate.run ⟨c.tests, c.project.root, host.projectName c.project.root⟩
  let outcome : RunOutcome :=
    ⟨environment, files.size, FindingCounts.tally findings, some gate, c.policy.blockOnError⟩
  if outcome.isBlocked then Act.say (blockedLine outcome.findings.errors)
  return outcome

/-- Runs the whole gate. A root that cannot be listed is a failure, whatever the toolchain
(`Runner::run`). -/
def run {σ : Type} (c : Config) : Act σ RunOutcome := do
  let host ← Act.host
  match host.listing c.project.root with
  | .error e => Act.fail (.walk c.project.root [e.text])
  | .ok _ =>
    match ← c.environment.detect c.project.root with
    | .unsupported reason =>
      Act.say (.line (reason.text ++ " (skipping pre-commit checks)") .warning)
      return .skipped (.unsupported reason)
    | environment => c.runChecks environment

end Config

end CommitGate

import CommitGate.Act
import CommitGate.Config.Basic

/-!
# The test gate

The gate asks whether the tests shall run, runs them, and ends passed, failed or skipped. It is
skipped in silence when the tests are disabled or have no configuration, and with a word when the
answer is no or there is nobody to ask. Only failing tests block a commit.

Results:

* `Answer.ofInput_input`: an answer is read back from its line of input.
* `run_disabled`: a gate that is disabled does nothing at all.
-/

namespace CommitGate

/-- An answer to the question whether the tests shall run (`Answer`). -/
inductive Answer where
  | yes
  | no
deriving DecidableEq, Repr

/-- The answer in a line of input: only a single `n` of either case, blanks aside, means no
(`parse_answer`). -/
def Answer.ofInput (line : String) : Answer :=
  if Text.trimmed line.toList ∈ [['n'], ['N']] then .no else .yes

/-- The line of input that gives an answer (`FixedAnswer`). -/
def Answer.input : Answer → String
  | .yes => "y"
  | .no => "n"

theorem Answer.ofInput_input (a : Answer) : ofInput a.input = a := by
  cases a <;> decide

/-- Why the tests were not run (`SkipReason`). -/
inductive SkipReason where
  | disabled
  | noConfig
  | declined
  | noTerminal
deriving DecidableEq, Repr

/-- How the gate ends (`GateOutcome`). -/
inductive GateOutcome where
  | skipped (reason : SkipReason)
  | passed
  | failed (result : CommandResult)
deriving DecidableEq, Repr

/-- The commit has to be stopped (`GateOutcome::is_failure`). -/
def GateOutcome.isFailure : GateOutcome → Bool
  | .failed _ => true
  | _ => false

/-- A gate for the project at `root` (`TestGate`). -/
structure Gate where
  config : TestsConfig
  root : Path
  /-- The name of the project in messages. -/
  project : String
deriving DecidableEq, Repr

namespace Gate

/-- The configuration of the tests is there (`TestGate::has_test_config`). -/
def hasTestConfig (g : Gate) (h : Host) : Bool :=
  h.isFile (g.root.join ⟨g.config.config⟩)

/-- Runs the tests and reports how they went. -/
def runTests {σ : Type} (g : Gate) : Act σ GateOutcome := do
  Act.say (.line "Running Tests..." .success)
  let result ← Act.call g.config.commandLine g.root
  if result.success then
    Act.say (.line "Tests Passed." .success)
    return .passed
  Act.say (.line ("Tests failed for " ++ g.project ++ " with message:") .error)
  Act.say ⟨result.tail g.config.failureOutputLines, .plain, true⟩
  return .failed result

/-- Asks, and acts on the answer. -/
def prompt {σ : Type} (g : Gate) : Act σ GateOutcome := do
  Act.say (.inline (g.config.prompt ++ " [Y/n] "))
  match ← Act.ask with
  | .error _ =>
    Act.say (.line "" .plain)
    Act.say (.line "Skipping Tests (no terminal available)." .warning)
    return .skipped .noTerminal
  | .ok line =>
    match Answer.ofInput line with
    | .no =>
      Act.say (.line "Skipping Tests." .warning)
      return .skipped .declined
    | .yes => g.runTests

/-- Drives the gate to its end (`TestGate::run`). -/
def run {σ : Type} (g : Gate) : Act σ GateOutcome := do
  if !g.config.enabled then return .skipped .disabled
  let host ← Act.host
  if g.config.requireConfig && !g.hasTestConfig host then return .skipped .noConfig
  g.prompt

theorem run_disabled {σ : Type} {g : Gate} (h : g.config.enabled = false) :
    (g.run : Act σ GateOutcome) = pure (.skipped .disabled) := by
  simp [run, h]

end Gate

end CommitGate

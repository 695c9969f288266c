import CommitGate.Gate
import CommitGate.Proofs.Act

/-!
# The ends of the test gate

A gate has seven ends. Four of them come without the tests being run, though the question may have
been asked; one is a command that cannot be started; and two are what the tests say by their exit
code. Each end fixes all that the gate has done, so that the record and the outcome tell the same
story.

Results:

* `run_ending`: every run of a gate has one of the ends.
* `Ending.failed_iff`: a gate fails exactly when the command was called on an answer and ended with
  another code than 0.
-/

namespace CommitGate.Gate

variable {σ : Type} {g : Gate} {s : Surroundings σ} {w : σ}

/-- The gate asks its question on a host. -/
structure Asks (g : Gate) (h : Host) : Prop where
  enabled : g.config.enabled = true
  configured : g.config.requireConfig = true → g.hasTestConfig h = true

/-- The call of the tests. -/
def testCall (g : Gate) : Event :=
  .called g.config.commandLine g.root

/-- The events up to the answer. -/
def question (g : Gate) : List Event :=
  [.said (.inline (g.config.prompt ++ " [Y/n] ")), .asked]

/-- The events up to the end of the tests. -/
def attempt (g : Gate) : List Event :=
  g.question ++ [.said (.line "Running Tests..." .success), g.testCall]

/-- The result of the tests in the world where they are called. -/
def tested (g : Gate) (s : Surroundings σ) (w : σ) : Except Failure CommandResult :=
  (s.command g.config.commandLine g.root (s.answer w).2).1

/-- The ends of a gate, with all that is done until then. -/
inductive Ending (g : Gate) (s : Surroundings σ) (w : σ) :
    List Event → Except Failure GateOutcome → Prop where
  | disabled (off : g.config.enabled = false) : Ending g s w [] (.ok (.skipped .disabled))
  | noConfig (on : g.config.enabled = true) (required : g.config.requireConfig = true)
      (missing : g.hasTestConfig (s.host w) = false) : Ending g s w [] (.ok (.skipped .noConfig))
  | noTerminal (asks : g.Asks (s.host w)) {text : String}
      (unanswered : (s.answer w).1 = .error text) :
      Ending g s w
        (g.question ++ [.said (.line "" .plain),
          .said (.line "Skipping Tests (no terminal available)." .warning)])
        (.ok (.skipped .noTerminal))
  | declined (asks : g.Asks (s.host w)) {line : String} (answered : (s.answer w).1 = .ok line)
      (no : Answer.ofInput line = .no) :
      Ending g s w (g.question ++ [.said (.line "Skipping Tests." .warning)])
        (.ok (.skipped .declined))
  | unstarted (asks : g.Asks (s.host w)) {line : String} (answered : (s.answer w).1 = .ok line)
      (yes : Answer.ofInput line = .yes) {e : Failure} (called : g.tested s w = .error e) :
      Ending g s w g.attempt (.error e)
  | passed (asks : g.Asks (s.host w)) {line : String} (answered : (s.answer w).1 = .ok line)
      (yes : Answer.ofInput line = .yes) {r : CommandResult} (called : g.tested s w = .ok r)
      (zero : r.exitCode = 0) :
      Ending g s w (g.attempt ++ [.said (.line "Tests Passed." .success)]) (.ok .passed)
  | failed (asks : g.Asks (s.host w)) {line : String} (answered : (s.answer w).1 = .ok line)
      (yes : Answer.ofInput line = .yes) {r : CommandResult} (called : g.tested s w = .ok r)
      (nonzero : r.exitCode ≠ 0) :
      Ending g s w
        (g.attempt ++ [.said (.line ("Tests failed for " ++ g.project ++ " with message:") .error),
          .said ⟨r.tail g.config.failureOutputLines, .plain, true⟩])
        (.ok (.failed r))

/-! ## Every run has an end -/

theorem runTests_run (g : Gate) (s : Surroundings σ) (w : σ) :
    (g.runTests.run s w).events =
      .said (.line "Running Tests..." .success) :: g.testCall ::
        (match (s.command g.config.commandLine g.root w).1 with
        | .error _ => []
        | .ok r =>
          if r.exitCode = 0 then [.said (.line "Tests Passed." .success)]
          else [.said (.line ("Tests failed for " ++ g.project ++ " with message:") .error),
            .said ⟨r.tail g.config.failureOutputLines, .plain, true⟩]) ∧
    (g.runTests.run s w).result =
      match (s.command g.config.commandLine g.root w).1 with
      | .error e => .error e
      | .ok r => .ok (if r.exitCode = 0 then .passed else .failed r) := by
  unfold runTests
  rw [Act.run_say_bind]
  cases hr : (s.command g.config.commandLine g.root w).1 with
  | error e =>
    rw [Act.run_bind_of_error (e := e) hr]
    exact ⟨rfl, rfl⟩
  | ok r =>
    rw [Act.run_bind_of_ok (x := r) hr]
    by_cases zero : r.exitCode = 0
    · have hs : r.success = true := by simp [CommandResult.success, zero]
      simp only [hs, zero, if_true]
      exact ⟨rfl, rfl⟩
    · have hs : r.success = false := by simp [CommandResult.success, zero]
      simp only [hs, zero, if_false]
      exact ⟨rfl, rfl⟩

theorem run_eq_prompt (asks : g.Asks (s.host w)) : g.run.run s w = g.prompt.run s w := by
  unfold run
  have hc : (g.config.requireConfig && !g.hasTestConfig (s.host w)) = false := by
    cases hr : g.config.requireConfig with
    | false => rfl
    | true => simp [asks.configured hr]
  simp only [asks.enabled, Bool.not_true, Bool.false_eq_true, if_false]
  rw [Act.run_host_bind]
  simp only [hc, Bool.false_eq_true, if_false]

/-- What the gate does on an answer. -/
def reply (g : Gate) : Except String String → Act σ GateOutcome
  | .error _ => do
    Act.say (.line "" .plain)
    Act.say (.line "Skipping Tests (no terminal available)." .warning)
    return .skipped .noTerminal
  | .ok line =>
    match Answer.ofInput line with
    | .no => do
      Act.say (.line "Skipping Tests." .warning)
      return .skipped .declined
    | .yes => g.runTests

theorem prompt_run (g : Gate) (s : Surroundings σ) (w : σ) :
    g.prompt.run s w =
      let t := (g.reply (s.answer w).1).run s (s.answer w).2
      ⟨g.question ++ t.events, t.world, t.result⟩ := by
  have hprompt : (g.prompt : Act σ GateOutcome) =
      Act.say (.inline (g.config.prompt ++ " [Y/n] ")) >>= fun _ => Act.ask >>= g.reply := rfl
  rw [hprompt, Act.run_say_bind, Act.run_bind_of_ok (x := (s.answer w).1) rfl]
  rfl

theorem reply_no {line : String} (no : Answer.ofInput line = .no) :
    (g.reply (.ok line)).run s w =
      ⟨[.said (.line "Skipping Tests." .warning)], w, .ok (.skipped .declined)⟩ := by
  simp only [reply, no]
  rfl

theorem reply_yes {line : String} (yes : Answer.ofInput line = .yes) :
    (g.reply (.ok line) : Act σ GateOutcome) = g.runTests := by
  simp only [reply, yes]

theorem run_noConfig (on : g.config.enabled = true) (required : g.config.requireConfig = true)
    (missing : g.hasTestConfig (s.host w) = false) :
    g.run.run s w = ⟨[], w, .ok (.skipped .noConfig)⟩ := by
  unfold run
  simp only [on, Bool.not_true, Bool.false_eq_true, if_false]
  rw [Act.run_host_bind]
  simp only [required, missing, Bool.not_false, Bool.and_true, if_true]
  rfl

/-- On a yes, the gate ends as its tests do. -/
theorem runTests_ending (asks : g.Asks (s.host w)) {line : String}
    (answered : (s.answer w).1 = .ok line) (yes : Answer.ofInput line = .yes) :
    g.Ending s w (g.question ++ (g.runTests.run s (s.answer w).2).events)
      (g.runTests.run s (s.answer w).2).result := by
  obtain ⟨hevents, hresult⟩ := runTests_run g s (s.answer w).2
  rw [hevents, hresult]
  cases called : (s.command g.config.commandLine g.root (s.answer w).2).1 with
  | error e => exact .unstarted asks answered yes called
  | ok r =>
    by_cases zero : r.exitCode = 0
    · simp only [zero, if_true]
      exact .passed asks answered yes called zero
    · simp only [zero, if_false]
      exact .failed asks answered yes called zero

/-- **Every run of a gate has one of the ends.** -/
theorem run_ending (g : Gate) (s : Surroundings σ) (w : σ) :
    g.Ending s w (g.run.run s w).events (g.run.run s w).result := by
  cases on : g.config.enabled with
  | false =>
    rw [run_disabled on]
    exact .disabled on
  | true =>
    by_cases skipped : g.config.requireConfig = true ∧ g.hasTestConfig (s.host w) = false
    · obtain ⟨required, missing⟩ := skipped
      rw [run_noConfig on required missing]
      exact .noConfig on required missing
    · have asks : g.Asks (s.host w) := ⟨on, fun required => by
        cases hc : g.hasTestConfig (s.host w) with
        | false => exact absurd ⟨required, hc⟩ skipped
        | true => rfl⟩
      rw [run_eq_prompt asks, prompt_run]
      cases answered : (s.answer w).1 with
      | error text => exact .noTerminal asks answered
      | ok line =>
        cases choice : Answer.ofInput line with
        | no =>
          rw [reply_no choice]
          exact .declined asks answered choice
        | yes =>
          rw [reply_yes choice]
          exact runTests_ending asks answered choice

/-- The record of a gate tells the world it leaves behind. -/
theorem recorded_run (g : Gate) : (g.run : Act σ GateOutcome).Recorded := by
  have tests : (g.runTests : Act σ GateOutcome).Recorded := by
    unfold runTests
    refine (Act.recorded_say _).bind fun _ => (Act.recorded_call _ _).bind fun r => ?_
    split
    · exact (Act.recorded_say _).bind fun _ => Act.recorded_pure _
    · exact (Act.recorded_say _).bind fun _ =>
        (Act.recorded_say _).bind fun _ => Act.recorded_pure _
  have prompt : (g.prompt : Act σ GateOutcome).Recorded := by
    unfold prompt
    refine (Act.recorded_say _).bind fun _ => Act.recorded_ask.bind fun a => ?_
    split
    · exact (Act.recorded_say _).bind fun _ =>
        (Act.recorded_say _).bind fun _ => Act.recorded_pure _
    · split
      · exact (Act.recorded_say _).bind fun _ => Act.recorded_pure _
      · exact tests
  unfold run
  split
  · exact Act.recorded_pure _
  · refine Act.recorded_host.bind fun h => ?_
    split
    · exact Act.recorded_pure _
    · exact prompt

/-! ## Failing -/

theorem calledAfterAsking_attempt {r : CommandResult} :
    s.CalledAfterAsking g.config.commandLine g.root r w g.attempt ↔ g.tested s w = .ok r := by
  simp [attempt, question, testCall, Surroundings.calledAfterAsking_cons, Surroundings.called_cons,
    Surroundings.after, tested]

/-- **A gate fails with a result exactly when the tests were called on an answer and ended with
it.** -/
theorem Ending.failed_iff {events : List Event} {o : GateOutcome} (h : g.Ending s w events (.ok o))
    (r : CommandResult) :
    o = .failed r ↔ s.CalledAfterAsking g.config.commandLine g.root r w events ∧
      r.exitCode ≠ 0 := by
  cases h with
  | disabled | noConfig => simp
  | noTerminal | declined =>
    simp [question, Surroundings.calledAfterAsking_cons, Surroundings.called_cons]
  | passed _ _ _ called zero =>
    rw [Surroundings.calledAfterAsking_append_left (by simp) (by simp), calledAfterAsking_attempt,
      called]
    constructor
    · intro h
      cases h
    · rintro ⟨h, nonzero⟩
      cases h
      exact absurd zero nonzero
  | failed _ _ _ called nonzero =>
    rw [Surroundings.calledAfterAsking_append_left (by simp) (by simp), calledAfterAsking_attempt,
      called]
    constructor
    · intro h
      cases h
      exact ⟨rfl, nonzero⟩
    · rintro ⟨h, -⟩
      cases h
      rfl

end CommitGate.Gate

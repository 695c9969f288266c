import CommitGate.Proofs.Gate
import CommitGate.Proofs.Pieces
import CommitGate.Script

/-!
# What a gate asks, calls, says and answers

The ends of a gate decide everything about a run of it. Whether it asks depends on the configuration
and the files, whether it calls the tests on the answer alone, and how it comes out on what the
tests say. So the outcome, the questions, the calls and the printed text of a run can be told apart
from each other, each by a condition of its own.

Results:

* `ofInput_eq_no_iff`: the lines that decline are a single `n` or `N` between blanks.
* `Ending.events_of_asks`, `Ending.events_of_not_asks`: a gate that asks, asks first and once, and
  one that does not ask does nothing.
* `Ending.calls_of_goes`, `Ending.calls_of_not_goes`: the tests are called once or not at all.
* `Ending.text_of_failed`: a failing run prints a head and the last lines of the output.
* `run_law`: how outcome, questions, calls and text of a run belong together.
-/

namespace CommitGate

open Text (isBlank trimmed)

/-! ## Answers -/

/-- The line declines: it is a single `n` of either case between blanks. -/
def Declines (line : String) : Prop :=
  ∃ before c after, line.toList = before ++ c :: after ∧ (c = 'n' ∨ c = 'N') ∧
    (∀ b ∈ before, isBlank b = true) ∧ ∀ b ∈ after, isBlank b = true

theorem trimmed_eq_singleton_iff {c : Char} (hc : isBlank c = false) (s : List Char) :
    trimmed s = [c] ↔ ∃ before after, s = before ++ c :: after ∧
      (∀ b ∈ before, isBlank b = true) ∧ ∀ b ∈ after, isBlank b = true := by
  simp [Text.trimmed_eq_iff, hc]

/-- **The lines that decline are a single `n` or `N` between blanks.** -/
theorem ofInput_eq_no_iff (line : String) : Answer.ofInput line = .no ↔ Declines line := by
  have h : Answer.ofInput line = .no ↔
      trimmed line.toList = ['n'] ∨ trimmed line.toList = ['N'] := by
    unfold Answer.ofInput
    split <;> simp_all
  rw [h, trimmed_eq_singleton_iff (by decide), trimmed_eq_singleton_iff (by decide)]
  constructor
  · rintro (⟨before, after, hs, hblank⟩ | ⟨before, after, hs, hblank⟩)
    · exact ⟨before, 'n', after, hs, .inl rfl, hblank⟩
    · exact ⟨before, 'N', after, hs, .inr rfl, hblank⟩
  · rintro ⟨before, c, after, hs, rfl | rfl, hblank⟩
    · exact .inl ⟨before, after, hs, hblank⟩
    · exact .inr ⟨before, after, hs, hblank⟩

theorem ofInput_eq_yes_iff (line : String) : Answer.ofInput line = .yes ↔ ¬ Declines line := by
  rw [← ofInput_eq_no_iff]
  cases Answer.ofInput line <;> simp

namespace Gate

variable {σ : Type} {g : Gate} {s : Surroundings σ} {w : σ} {events : List Event}
  {o : Except Failure GateOutcome}

/-! ## Questions and calls -/

/-- A gate asks when the tests are enabled and their configuration, if it is required, is a regular
file, be it through links. -/
theorem asks_iff (g : Gate) (h : Host) :
    g.Asks h ↔ g.config.enabled = true ∧ (g.config.requireConfig = false ∨
      ∃ node content mode, h.entry (g.root.join ⟨g.config.config⟩) =
        .ok (.file node content mode)) := by
  have hfile : g.hasTestConfig h = true ↔
      ∃ node content mode, h.entry (g.root.join ⟨g.config.config⟩) =
        .ok (.file node content mode) := by
    unfold hasTestConfig Host.isFile
    split <;> simp_all
  rw [← hfile]
  constructor
  · rintro ⟨enabled, configured⟩
    cases required : g.config.requireConfig with
    | false => exact ⟨enabled, .inl rfl⟩
    | true => exact ⟨enabled, .inr (configured required)⟩
  · rintro ⟨enabled, free | there⟩
    · exact ⟨enabled, fun required => by rw [free] at required; cases required⟩
    · exact ⟨enabled, fun _ => there⟩

/-- The tests are called: the gate asks, and the answer is there and does not decline. -/
structure Goes (g : Gate) (s : Surroundings σ) (w : σ) : Prop where
  asks : g.Asks (s.host w)
  answered : ∃ line, (s.answer w).1 = .ok line ∧ ¬ Declines line

/-- Why a gate is skipped. -/
def SkippedFor (g : Gate) (s : Surroundings σ) (w : σ) : SkipReason → Prop
  | .disabled => g.config.enabled = false
  | .noConfig => g.config.enabled = true ∧ ¬ g.Asks (s.host w)
  | .noTerminal => g.Asks (s.host w) ∧ ∃ text, (s.answer w).1 = .error text
  | .declined => g.Asks (s.host w) ∧ ∃ line, (s.answer w).1 = .ok line ∧ Declines line

theorem not_asks_of_missing (required : g.config.requireConfig = true)
    (missing : g.hasTestConfig (s.host w) = false) : ¬ g.Asks (s.host w) := by
  intro asks
  rw [asks.configured required] at missing
  cases missing

theorem not_goes_of_answer {answer : Except String String} (answered : (s.answer w).1 = answer)
    (h : ∀ line, answer = .ok line → Declines line) : ¬ g.Goes s w := by
  rintro ⟨-, line, hline, accepts⟩
  exact accepts (h line (answered.symm.trans hline))

/-- A gate that asks begins with its question, and asks no other. -/
theorem Ending.events_of_asks (h : g.Ending s w events o) (asks : g.Asks (s.host w)) :
    ∃ later, events = g.question ++ later ∧ .asked ∉ later := by
  cases h with
  | disabled off =>
    rw [asks.enabled] at off
    cases off
  | noConfig on required missing => exact absurd asks (not_asks_of_missing required missing)
  | noTerminal | declined => exact ⟨_, rfl, by simp⟩
  | unstarted => exact ⟨_, rfl, by simp [testCall]⟩
  | passed | failed => exact ⟨_, List.append_assoc .., by simp [testCall]⟩

/-- A gate that does not ask does nothing. -/
theorem Ending.events_of_not_asks (h : g.Ending s w events o) (silent : ¬ g.Asks (s.host w)) :
    events = [] := by
  cases h with
  | disabled | noConfig => rfl
  | noTerminal asks | declined asks | unstarted asks | passed asks | failed asks =>
    exact absurd asks silent

/-- The tests are called once. -/
theorem Ending.calls_of_goes (h : g.Ending s w events o) (goes : g.Goes s w) (world : σ) :
    (⟨events, world, o⟩ : Trace σ GateOutcome).calls = [(g.config.commandLine, g.root)] := by
  cases h with
  | disabled off =>
    rw [goes.asks.enabled] at off
    cases off
  | noConfig on required missing => exact absurd goes.asks (not_asks_of_missing required missing)
  | noTerminal _ unanswered => exact absurd goes (not_goes_of_answer unanswered (by simp))
  | declined _ answered no =>
    refine absurd goes (not_goes_of_answer answered fun line hline => ?_)
    cases hline
    exact (ofInput_eq_no_iff _).1 no
  | unstarted | passed | failed => rfl

/-- The tests are not called. -/
theorem Ending.calls_of_not_goes (h : g.Ending s w events o) (stays : ¬ g.Goes s w) (world : σ) :
    (⟨events, world, o⟩ : Trace σ GateOutcome).calls = [] := by
  cases h with
  | disabled | noConfig | noTerminal | declined => rfl
  | unstarted asks answered yes | passed asks answered yes | failed asks answered yes =>
    exact absurd ⟨asks, _, answered, (ofInput_eq_yes_iff _).1 yes⟩ stays

/-! ## Outcomes -/

/-- A gate that calls the tests comes out as they do. -/
theorem Ending.result_of_goes (h : g.Ending s w events o) (goes : g.Goes s w) :
    o = match g.tested s w with
      | .error e => .error e
      | .ok r => .ok (if r.exitCode = 0 then .passed else .failed r) := by
  cases h with
  | disabled off =>
    rw [goes.asks.enabled] at off
    cases off
  | noConfig on required missing => exact absurd goes.asks (not_asks_of_missing required missing)
  | noTerminal _ unanswered => exact absurd goes (not_goes_of_answer unanswered (by simp))
  | declined _ answered no =>
    refine absurd goes (not_goes_of_answer answered fun line hline => ?_)
    cases hline
    exact (ofInput_eq_no_iff _).1 no
  | unstarted _ _ _ called => simp [called]
  | passed _ _ _ called zero => simp [called, zero]
  | failed _ _ _ called nonzero => simp [called, nonzero]

/-- A gate that does not call the tests is skipped, for the reason that kept it from calling. -/
theorem Ending.result_of_not_goes (h : g.Ending s w events o) (stays : ¬ g.Goes s w) :
    ∃ reason, o = .ok (.skipped reason) ∧ g.SkippedFor s w reason := by
  cases h with
  | disabled off => exact ⟨_, rfl, off⟩
  | noConfig on required missing => exact ⟨_, rfl, on, not_asks_of_missing required missing⟩
  | noTerminal asks unanswered => exact ⟨_, rfl, asks, _, unanswered⟩
  | declined asks answered no => exact ⟨_, rfl, asks, _, answered, (ofInput_eq_no_iff _).1 no⟩
  | unstarted asks answered yes | passed asks answered yes | failed asks answered yes =>
    exact absurd ⟨asks, _, answered, (ofInput_eq_yes_iff _).1 yes⟩ stays

/-- Only one reason fits, and none when the tests are called. -/
theorem not_goes_of_skippedFor {reason : SkipReason} (h : g.SkippedFor s w reason) :
    ¬ g.Goes s w := by
  rintro ⟨asks, line, answered, accepts⟩
  cases reason with
  | disabled =>
    rw [SkippedFor, asks.enabled] at h
    cases h
  | noConfig => exact h.2 asks
  | noTerminal =>
    obtain ⟨-, text, unanswered⟩ := h
    rw [unanswered] at answered
    cases answered
  | declined =>
    obtain ⟨-, line', answered', declines⟩ := h
    rw [answered] at answered'
    cases answered'
    exact accepts declines

/-- Only one reason fits. -/
theorem skippedFor_unique {reason reason' : SkipReason} (h : g.SkippedFor s w reason)
    (h' : g.SkippedFor s w reason') : reason = reason' := by
  have enabled : g.Asks (s.host w) → g.config.enabled = true := Asks.enabled
  cases reason <;> cases reason' <;> grind [SkippedFor]

theorem Ending.passed_iff (h : g.Ending s w events o) :
    o = .ok .passed ↔ g.Goes s w ∧ ∃ r, g.tested s w = .ok r ∧ r.exitCode = 0 := by
  by_cases goes : g.Goes s w
  · rw [h.result_of_goes goes]
    cases g.tested s w with
    | error e => simp
    | ok r => by_cases zero : r.exitCode = 0 <;> simp [goes, zero]
  · obtain ⟨reason, hresult, -⟩ := h.result_of_not_goes goes
    simp [hresult, goes]

theorem Ending.result_failed_iff (h : g.Ending s w events o) (r : CommandResult) :
    o = .ok (.failed r) ↔ g.Goes s w ∧ g.tested s w = .ok r ∧ r.exitCode ≠ 0 := by
  by_cases goes : g.Goes s w
  · rw [h.result_of_goes goes]
    cases g.tested s w with
    | error e => simp
    | ok r' =>
      by_cases zero : r'.exitCode = 0
      · simp only [zero, if_true]
        constructor
        · intro h
          cases h
        · rintro ⟨-, hr, nonzero⟩
          cases hr
          exact absurd zero nonzero
      · simp only [zero, if_false]
        constructor
        · intro h
          cases h
          exact ⟨goes, rfl, zero⟩
        · rintro ⟨-, hr, -⟩
          cases hr
          rfl
  · obtain ⟨reason, hresult, -⟩ := h.result_of_not_goes goes
    simp [hresult, goes]

theorem Ending.skipped_iff (h : g.Ending s w events o) (reason : SkipReason) :
    o = .ok (.skipped reason) ↔ g.SkippedFor s w reason := by
  by_cases goes : g.Goes s w
  · have hnot : ¬ g.SkippedFor s w reason := fun fits => not_goes_of_skippedFor fits goes
    rw [h.result_of_goes goes]
    cases g.tested s w with
    | error e => simp [hnot]
    | ok r => by_cases zero : r.exitCode = 0 <;> simp [zero, hnot]
  · obtain ⟨reason', hresult, fits⟩ := h.result_of_not_goes goes
    rw [hresult]
    constructor
    · intro heq
      cases heq
      exact fits
    · intro fits'
      rw [skippedFor_unique fits fits']

theorem Ending.error_iff (h : g.Ending s w events o) (e : Failure) :
    o = .error e ↔ g.Goes s w ∧ g.tested s w = .error e := by
  by_cases goes : g.Goes s w
  · rw [h.result_of_goes goes]
    cases g.tested s w <;> simp [goes]
  · obtain ⟨reason, hresult, -⟩ := h.result_of_not_goes goes
    simp [hresult, goes]

/-! ## Printed text -/

/-- Lines that are printed, each on a line of its own; no lines leave an empty one. -/
def linesText (lines : List String) : String :=
  String.join ((if lines = [] then [""] else lines).map (· ++ "\n"))

theorem intercalate_newline (line : String) (lines : List String) :
    "\n".intercalate (line :: lines) ++ "\n" = linesText (line :: lines) := by
  induction lines generalizing line with
  | nil => simp [linesText, String.intercalate_singleton, String.join_cons]
  | cons next lines ih =>
    rw [String.intercalate_cons_cons, String.append_assoc, ih]
    simp [linesText, String.join_cons]

theorem render_lines (lines : List String) (colors : Bool) :
    (⟨lines, .plain, true⟩ : Emission).render colors = linesText lines := by
  rw [Emission.render_plain _ rfl]
  cases lines with
  | nil => rfl
  | cons line lines => exact intercalate_newline line lines

/-- What a gate says before the output of tests that fail. -/
def failureHead (g : Gate) : List Emission :=
  [.inline (g.config.prompt ++ " [Y/n] "), .line "Running Tests..." .success,
    .line ("Tests failed for " ++ g.project ++ " with message:") .error]

/-- The lines shown are the last of the output: as many as asked for, or all. -/
theorem exists_append_tail (r : CommandResult) (limit : Nat) :
    ∃ front, r.output = front ++ r.tail limit ∧
      (r.tail limit).length =
        if limit = 0 then r.output.length else min limit r.output.length := by
  unfold CommandResult.tail
  by_cases hl : limit = 0
  · exact ⟨[], by simp [hl]⟩
  · refine ⟨r.output.take (r.output.length - limit), ?_, ?_⟩
    · rw [if_neg hl, List.take_append_drop]
    · rw [if_neg hl, if_neg hl, List.length_drop]
      omega

/-- The lines of the output follow the head, and nothing stands between or behind them. -/
theorem Ending.text_of_failed {r : CommandResult} (h : g.Ending s w events (.ok (.failed r)))
    (world : σ) (colors : Bool) :
    (⟨events, world, .ok (.failed r)⟩ : Trace σ GateOutcome).text colors =
      Emission.renderAll colors g.failureHead ++
        linesText (r.tail g.config.failureOutputLines) := by
  cases h with
  | failed =>
    simp [Trace.text, Trace.said, attempt, question, testCall, failureHead, Emission.renderAll,
      String.join_cons, render_lines, String.append_assoc]

/-! ## The law -/

/-- **Outcome, questions, calls and text of a run belong together.** A gate asks when the tests are
enabled and their configuration is a regular file or not required; then its prompt is said first and
one answer is read, and otherwise nothing is said, read or called. The tests are called once, with
the command line in the root, when an answer is there that is not a single `n` or `N` between
blanks, and not at all otherwise. The gate is passed when they end with code 0 and failed with their
result when they end with another; behind the question and two lines of its own the gate then prints
the last lines of their output, as many as are configured, and nothing else. It fails to come out
only when the tests cannot be started, and every other run is skipped for the one reason that fits.
-/
theorem run_law (g : Gate) (s : Surroundings σ) (w : σ) :
    let t := g.run.run s w
    (g.Asks (s.host w) ↔ g.config.enabled = true ∧ (g.config.requireConfig = false ∨
      ∃ node content mode, (s.host w).entry (g.root.join ⟨g.config.config⟩) =
        .ok (.file node content mode))) ∧
    (g.Asks (s.host w) → t.asked = 1 ∧ ∃ later,
      t.events = .said (.inline (g.config.prompt ++ " [Y/n] ")) :: .asked :: later) ∧
    (¬ g.Asks (s.host w) → t.events = []) ∧
    (g.Goes s w → t.calls = [(g.config.commandLine, g.root)]) ∧
    (¬ g.Goes s w → t.calls = []) ∧
    (t.result = .ok .passed ↔ g.Goes s w ∧ ∃ r, g.tested s w = .ok r ∧ r.exitCode = 0) ∧
    (∀ r, t.result = .ok (.failed r) ↔ g.Goes s w ∧ g.tested s w = .ok r ∧ r.exitCode ≠ 0) ∧
    (∀ r, t.result = .ok (.failed r) → ∃ front last,
      r.output = front ++ last ∧
      last.length = (if g.config.failureOutputLines = 0 then r.output.length
        else min g.config.failureOutputLines r.output.length) ∧
      ∀ colors, t.text colors = Emission.renderAll colors [.inline (g.config.prompt ++ " [Y/n] "),
        .line "Running Tests..." .success,
        .line ("Tests failed for " ++ g.project ++ " with message:") .error] ++ linesText last) ∧
    (∀ reason, t.result = .ok (.skipped reason) ↔ g.SkippedFor s w reason) ∧
    ∀ e, t.result = .error e ↔ g.Goes s w ∧ g.tested s w = .error e := by
  intro t
  have ending : g.Ending s w t.events t.result := g.run_ending s w
  refine ⟨g.asks_iff _, ?_, ending.events_of_not_asks,
    fun goes => ending.calls_of_goes goes t.world,
    fun stays => ending.calls_of_not_goes stays t.world, ending.passed_iff,
    ending.result_failed_iff, ?_, ending.skipped_iff, ending.error_iff⟩
  · intro asks
    obtain ⟨later, hevents, honce⟩ := ending.events_of_asks asks
    refine ⟨?_, later, hevents⟩
    rw [Trace.asked, hevents, List.count_append, List.count_eq_zero.2 honce]
    simp [question]
  · intro r failed
    obtain ⟨front, houtput, hlength⟩ := exists_append_tail r g.config.failureOutputLines
    have ending' : g.Ending s w t.events (.ok (.failed r)) := failed ▸ ending
    refine ⟨front, _, houtput, hlength, fun colors => ?_⟩
    rw [← failureHead, ← ending'.text_of_failed t.world colors, ← failed]

/-- A gate that needs no configuration and shows the last two lines of a failure. -/
def plainGate : Gate :=
  ⟨{ requireConfig := false, failureOutputLines := 2 }, ⟨"."⟩, "Shop"⟩

/-- A script with a blank answer and tests that fail with three lines of output. -/
def failingTests : Script :=
  ⟨⟨.empty, [], []⟩, [.ok " \n"], [.ok ⟨["F", "1 test", "FAILURES"], 1⟩]⟩

/-- Tests that fail are shown by their last lines. -/
theorem run_law_failingTests :
    plainGate.Goes Script.surroundings failingTests ∧
      (plainGate.run.run Script.surroundings failingTests).calls =
        [("phpunit --configuration phpunit.xml", ⟨"."⟩)] ∧
      (plainGate.run.run Script.surroundings failingTests).text false =
        "Would you like to run tests before committing? [Y/n] Running Tests...\n" ++
          "Tests failed for Shop with message:\n1 test\nFAILURES\n" := by
  have law := plainGate.run_law Script.surroundings failingTests
  have asks : plainGate.Asks failingTests.host := law.1.2 ⟨rfl, .inl rfl⟩
  have goes : plainGate.Goes Script.surroundings failingTests :=
    ⟨asks, " \n", rfl, (ofInput_eq_yes_iff _).1 (by decide)⟩
  refine ⟨goes, ?_, ?_⟩
  · rw [law.2.2.2.1 goes]
    decide +kernel
  · have failed := (law.2.2.2.2.2.2.1 ⟨["F", "1 test", "FAILURES"], 1⟩).2 ⟨goes, rfl, by decide⟩
    obtain ⟨front, last, houtput, hlength, htext⟩ := law.2.2.2.2.2.2.2.1 _ failed
    have hfront : front.length = 1 := by
      have := congrArg List.length houtput
      simp only [List.length_append, hlength] at this
      simpa [plainGate] using this
    obtain ⟨first, rfl⟩ := List.length_eq_one_iff.1 hfront
    cases houtput
    rw [htext false]
    decide +kernel

end Gate

end CommitGate

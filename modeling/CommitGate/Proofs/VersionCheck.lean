import CommitGate.Config.Validation
import CommitGate.Proofs.Run
import CommitGate.Script
import CommitGate.Toolchain

/-!
# Version checks that run out of time

A command that is stopped after its time leaves one line behind, which names the command. The check
of the toolchain looks for a version in whatever the command has left behind, and so it reads the
command itself: a tool whose name has a version in it may pass without having said anything.

Results:

* `findRuns?_append`: a text without digits in front of another shows no version of its own.
* `findRuns?_eq_none`: a text shows no version where no digit is followed by a point and a digit.
* `detect_of_timedOut`: what a check finds that was stopped after its time.
* `late_check_supported`: such a check may count as support.
-/

namespace CommitGate

namespace Version

/-- A digit is directly followed by a point and a digit: the least that a version consists of. -/
def Shown (s : List Char) : Prop :=
  ∃ before c d after, s = before ++ c :: '.' :: d :: after ∧
    Text.isDecimalDigit c = true ∧ Text.isDecimalDigit d = true

theorem Shown.cons {s : List Char} (h : Shown s) (c : Char) : Shown (c :: s) := by
  obtain ⟨before, a, d, after, rfl, ha, hd⟩ := h
  exact ⟨c :: before, a, d, after, rfl, ha, hd⟩

/-- The digits in front are not followed by a point and a digit, unless the text shows that. -/
theorem pointRun?_digitRun {c : Char} {r : List Char} (hc : Text.isDecimalDigit c = true)
    (h : ¬ Shown (c :: r)) : pointRun? (digitRun (c :: r)).2 = none := by
  induction r generalizing c with
  | nil => simp [digitRun, hc, pointRun?]
  | cons d r ih =>
    have hrun : (digitRun (c :: d :: r)).2 = (d :: r).dropWhile Text.isDecimalDigit := by
      show (c :: d :: r).dropWhile Text.isDecimalDigit = _
      rw [List.dropWhile_cons_of_pos hc]
    rw [hrun]
    by_cases hd : Text.isDecimalDigit d = true
    · exact ih hd fun hshown => h (hshown.cons c)
    · rw [List.dropWhile_cons_of_neg hd]
      unfold pointRun?
      split
      · next e r' heq =>
        obtain ⟨rfl, rfl⟩ := List.cons.inj heq
        have he : ¬ Text.isDecimalDigit e = true :=
          fun he => h ⟨[], c, e, r', rfl, hc, he⟩
        rw [if_neg he]
      · rfl

/-- **A text in which no digit is followed by a point and a digit shows no version.** -/
theorem findRuns?_eq_none {s : List Char} (h : ¬ Shown s) : findRuns? s = none := by
  induction s with
  | nil => rfl
  | cons c r ih =>
    have hrest : findRuns? r = none := ih fun hshown => h (hshown.cons c)
    rw [findRuns?]
    by_cases hc : Text.isDecimalDigit c = true
    · rw [if_pos hc, pointRun?_digitRun hc h, hrest]
    · rw [if_neg hc, hrest]

/-- **A text without digits in front of another shows no version of its own.** -/
theorem findRuns?_append {s : List Char} (h : ∀ c ∈ s, Text.isDecimalDigit c = false)
    (t : List Char) : findRuns? (s ++ t) = findRuns? t := by
  induction s with
  | nil => rfl
  | cons c s ih =>
    have hc : ¬ Text.isDecimalDigit c = true := by simp [h c List.mem_cons_self]
    rw [List.cons_append, findRuns?, if_neg hc]
    exact ih fun d hd => h d (List.mem_cons_of_mem c hd)

theorem find?_append {s : List Char} (h : ∀ c ∈ s, Text.isDecimalDigit c = false)
    (t : List Char) : find? (s ++ t) = find? t := by
  unfold find?
  rw [findRuns?_append h]

theorem find?_eq_none {s : List Char} (h : ¬ Shown s) : find? s = none := by
  unfold find?
  rw [findRuns?_eq_none h]
  rfl

end Version

namespace EnvironmentConfig

variable {σ : Type} {s : Surroundings σ} {w : σ} {e : EnvironmentConfig} {d : Path}

theorem evaluate_eq_supported_iff {output : String} {v : Version} :
    e.evaluate output = .supported v ↔
      Version.find? output.toList = some v ∧ e.required ≤ v := by
  unfold evaluate
  cases hfound : Version.find? output.toList with
  | none => simp
  | some found =>
    by_cases hle : e.required ≤ found
    · simp only [if_pos hle, Environment.supported.injEq, Option.some.injEq]
      constructor
      · rintro rfl
        exact ⟨rfl, hle⟩
      · exact fun h => h.1
    · simp only [if_neg hle, Option.some.injEq, reduceCtorEq, false_iff]
      rintro ⟨rfl, h⟩
      exact hle h

theorem evaluate_of_find?_eq_none {output : String} (h : Version.find? output.toList = none) :
    e.evaluate output = .unsupported (.versionUnknown e.tool) := by
  unfold evaluate
  rw [h]

/-- The line that a stopped command leaves behind is judged like the command itself. -/
theorem evaluate_timedOut (command : String) :
    e.evaluate ("\n".intercalate (CommandResult.timedOut command).output) =
      e.evaluate command := by
  have hline : "\n".intercalate (CommandResult.timedOut command).output =
      "Command timed out: " ++ command := by
    simp [CommandResult.timedOut]
  have hall : ("Command timed out: ".toList.all fun c => !Text.isDecimalDigit c) = true := by
    decide +kernel
  have hdigits : ∀ c ∈ "Command timed out: ".toList, Text.isDecimalDigit c = false :=
    fun c hc => by simpa using List.all_eq_true.1 hall c hc
  unfold evaluate
  rw [hline, String.toList_append, Version.find?_append hdigits]

/-- A tool that is there and answers is judged by what it has left behind. -/
theorem result_detect_of_answered (check : e.check = true)
    (present : ((s.host w).findProgram? e.tool).isSome = true) {r : CommandResult}
    (answered : (s.command e.versionCommand d w).1 = .ok r) :
    ((e.detect d).run s w).result = .ok (e.evaluate ("\n".intercalate r.output)) := by
  rw [detect_run_of_present check present, answered]
  rfl

/-- **What a version check finds that was stopped after its time** is what stands in the command:
the environment counts as supported exactly when the first version in the command has a value and is
new enough, and its version is unknown when no digit of the command is followed by a point and a
digit. -/
theorem detect_of_timedOut (check : e.check = true)
    (present : ((s.host w).findProgram? e.tool).isSome = true)
    (late : (s.command e.versionCommand d w).1 = .ok (.timedOut e.versionCommand)) :
    let found := ((e.detect d).run s w).result
    found = .ok (e.evaluate e.versionCommand) ∧
      (∀ v, found = .ok (.supported v) ↔
        Version.find? e.versionCommand.toList = some v ∧ e.required ≤ v) ∧
      (¬ Version.Shown e.versionCommand.toList →
        found = .ok (.unsupported (.versionUnknown e.tool))) := by
  intro found
  have hfound : found = .ok (e.evaluate e.versionCommand) := by
    rw [← evaluate_timedOut]
    exact result_detect_of_answered check present late
  refine ⟨hfound, fun v => ?_, fun hshown => ?_⟩
  · rw [hfound, Except.ok.injEq, evaluate_eq_supported_iff]
  · rw [hfound, evaluate_of_find?_eq_none (Version.find?_eq_none hshown)]

/-- A host with one program, which does not answer in time. -/
def slow (tool command : String) : Script :=
  ⟨⟨.dir "bin" (.file tool 0 [] Entry.scriptMode .empty) .empty, [], [("PATH", "/bin")]⟩, [],
    [.ok (.timedOut command)]⟩

/-- The tool of the defaults is not supported when it does not answer in time. -/
theorem detect_of_timedOut_php :
    (((({} : EnvironmentConfig).detect ⟨"/"⟩).run Script.surroundings
      (slow "php" "php --version")).result = .ok (.unsupported (.versionUnknown "php"))) ∧
      ∀ v, ((({} : EnvironmentConfig).detect ⟨"/"⟩).run Script.surroundings
        (slow "php" "php --version")).result ≠ .ok (.supported v) := by
  have present : ((slow "php" "php --version").host.findProgram? "php").isSome = true := by
    decide +kernel
  obtain ⟨hfound, hsupported, -⟩ := detect_of_timedOut (e := {}) (d := ⟨"/"⟩)
    (s := Script.surroundings) (w := slow "php" "php --version") rfl present rfl
  have hnone : Version.find? ({} : EnvironmentConfig).versionCommand.toList = none := by
    decide +kernel
  refine ⟨?_, fun v hv => ?_⟩
  · rw [hfound, evaluate_of_find?_eq_none hnone]
  · have h := ((hsupported v).1 hv).1
    rw [hnone] at h
    cases h

/-- A tool with its version in its name. -/
def versionedTool : EnvironmentConfig := { tool := "python3.11", minVersion := "3.8" }

/-- **A check that was stopped after its time may count as support**: the version comes from the
name of the tool, which has said nothing. -/
theorem late_check_supported :
    versionedTool.check = true ∧ Config.checkEnvironment versionedTool = .ok () ∧
      ((slow "python3.11" "python3.11 --version").host.findProgram? versionedTool.tool).isSome =
        true ∧
      (Script.surroundings.command versionedTool.versionCommand ⟨"/"⟩
        (slow "python3.11" "python3.11 --version")).1 =
          .ok (.timedOut versionedTool.versionCommand) ∧
      ((versionedTool.detect ⟨"/"⟩).run Script.surroundings
        (slow "python3.11" "python3.11 --version")).result = .ok (.supported ⟨3, 11, 0⟩) := by
  refine ⟨rfl, by rfl, by decide +kernel, rfl, ?_⟩
  have hfound := result_detect_of_answered (e := versionedTool) (d := ⟨"/"⟩)
    (s := Script.surroundings) (w := slow "python3.11" "python3.11 --version") rfl
    (by decide +kernel) rfl
  have hsupported : versionedTool.evaluate "python3.11 --version" = .supported ⟨3, 11, 0⟩ := by
    decide +kernel
  rw [hfound, evaluate_timedOut, ← hsupported]

end EnvironmentConfig

end CommitGate

import CommitGate.Proofs.GateLaw
import CommitGate.Proofs.Run

/-!
# Order and extent of what a run does

A run goes through four phases: it lists the root, looks for the tool, collects the files and
reports what is found in them, and drives the gate. Each phase may be the last. What has been called
and said by then is fixed by the results of the phases so far, and nothing of a later phase comes
before it.

Results:

* `run_of_unlisted`, `run_of_unsupported`, `run_of_uncollected`, `run_of_collected`: the record of a
  run, by the phase that ends it.
* `errors_eq_countP_lines`: the errors that are counted are the error lines that are printed.
* `run_effects`: what a run calls and prints, in which order, and what it leaves out.
-/

namespace CommitGate

variable {σ : Type} {s : Surroundings σ} {w : σ}

/-! ## What a record holds -/

namespace Record

/-- What was said in some events. -/
def said (es : List Event) : List Emission :=
  es.filterMap fun | .said e => some e | _ => none

/-- The text that some events leave on the output. -/
def text (colors : Bool) (es : List Event) : String :=
  Emission.renderAll colors (said es)

/-- The commands that were called, each with its directory. -/
def calls (es : List Event) : List (String × Path) :=
  es.filterMap fun | .called c d => some (c, d) | _ => none

/-- The record of some calls. -/
def ofCalls (cs : List (String × Path)) : List Event :=
  cs.map fun call => .called call.1 call.2

theorem said_append (es es' : List Event) : said (es ++ es') = said es ++ said es' :=
  List.filterMap_append

theorem said_ofCalls (cs : List (String × Path)) : said (ofCalls cs) = [] := by
  simp [said, ofCalls]

theorem text_append (colors : Bool) (es es' : List Event) :
    text colors (es ++ es') = text colors es ++ text colors es' := by
  simp [text, said_append, Emission.renderAll, String.join_append]

theorem text_ofCalls (colors : Bool) (cs : List (String × Path)) :
    text colors (ofCalls cs) = "" := by
  rw [text, said_ofCalls]
  rfl

theorem text_line (colors : Bool) (e : Emission) : text colors [.said e] = e.render colors := by
  show String.join [e.render colors] = _
  rw [String.join_cons, String.join_nil, String.append_empty]

theorem calls_append (es es' : List Event) : calls (es ++ es') = calls es ++ calls es' :=
  List.filterMap_append

theorem calls_ofCalls (cs : List (String × Path)) : calls (ofCalls cs) = cs := by
  simp [calls, ofCalls]

theorem calls_said {α : Type} (f : α → Emission) (xs : List α) :
    calls (xs.map fun x => .said (f x)) = [] := by
  simp [calls]

theorem not_asked_ofCalls (cs : List (String × Path)) : .asked ∉ ofCalls cs := by
  simp [ofCalls]

end Record

namespace Trace

variable {α : Type} (t : Trace σ α)

theorem text_eq (colors : Bool) : t.text colors = Record.text colors t.events := rfl

theorem said_eq : t.said = Record.said t.events := rfl

theorem calls_eq : t.calls = Record.calls t.events := rfl

theorem asked_eq_zero (h : .asked ∉ t.events) : t.asked = 0 :=
  List.count_eq_zero.2 h

end Trace

/-! ## The tool -/

namespace EnvironmentConfig

/-- The calls that ask the tool for its version: one when the check is on and the tool is there. -/
def versionCalls (e : EnvironmentConfig) (directory : Path) (h : Host) : List (String × Path) :=
  if e.check = true ∧ (h.findProgram? e.tool).isSome = true then [(e.versionCommand, directory)]
  else []

/-- Looking for the tool does nothing but ask it for its version, and always comes to a result. -/
theorem detect_run (e : EnvironmentConfig) (d : Path) (s : Surroundings σ) (w : σ) :
    ∃ environment world, (e.detect d).run s w =
      ⟨Record.ofCalls (e.versionCalls d (s.host w)), world, .ok environment⟩ := by
  unfold versionCalls
  cases check : e.check with
  | false => exact ⟨.unchecked, w, detect_run_of_not_check check d s w⟩
  | true =>
    cases hfound : (s.host w).findProgram? e.tool with
    | none => exact ⟨.unsupported (.toolMissing e.tool), w, detect_run_of_missing check hfound d⟩
    | some p => exact ⟨_, _, detect_run_of_present check (by rw [hfound]; rfl) d⟩

end EnvironmentConfig

namespace Config

variable {c : Config}

/-! ## The phases -/

/-- A root that cannot be listed ends a run before it does anything. -/
theorem run_of_unlisted {fault : Fault} (h : (s.host w).listing c.project.root = .error fault) :
    c.run.run s w = ⟨[], w, .error (.walk c.project.root [fault.text])⟩ := by
  unfold run
  rw [Act.run_host_bind, h]
  rfl

theorem run_of_listed {inner : Tree} (h : (s.host w).listing c.project.root = .ok inner)
    {seen : List Event} {world : σ} {environment : Environment}
    (hdetect : (c.environment.detect c.project.root).run s w = ⟨seen, world, .ok environment⟩) :
    c.run.run s w =
      let t := (c.proceed environment).run s world
      ⟨seen ++ t.events, t.world, t.result⟩ := by
  unfold run
  rw [Act.run_host_bind, h]
  show (c.environment.detect c.project.root >>= c.proceed).run s w = _
  rw [Act.run_bind_of_ok (x := environment) (by rw [hdetect]), hdetect]

theorem proceed_of_supported {environment : Environment} (h : environment.isSupported = true) :
    (c.proceed environment : Act σ RunOutcome) = c.runChecks environment := by
  cases environment with
  | unsupported reason => cases h
  | unchecked | supported => rfl

/-- Files that cannot be collected end a report before anything is said about them. -/
theorem reportFindings_of_uncollected {e : Failure}
    (h : (s.host w).collect c.project.selection c.project.root = .error e) :
    c.reportFindings.run s w = ⟨[], w, .error e⟩ := by
  unfold reportFindings
  rw [Act.run_host_bind, Act.run_bind_of_error (e := e) h]
  rfl

theorem runChecks_of_uncollected {e : Failure} (environment : Environment)
    (h : (s.host w).collect c.project.selection c.project.root = .error e) :
    (c.runChecks environment).run s w = ⟨[], w, .error e⟩ := by
  have hfound := reportFindings_of_uncollected h
  unfold runChecks
  rw [Act.run_bind_of_error (e := e) (by rw [hfound]), hfound]

/-- What is said after the gate, which is nothing when the gate failed to come out. -/
def verdictAfter (c : Config) (environment : Environment) (files : FileSet) :
    Except Failure GateOutcome → List Event
  | .error _ => []
  | .ok gate => verdictSaid (c.outcomeOf environment files gate)

theorem runChecks_of_collected {files : FileSet}
    (h : (s.host w).collect c.project.selection c.project.root = .ok files)
    (environment : Environment) :
    (c.runChecks environment).run s w =
      let gate := (c.gateOn (s.host w)).run.run s w
      ⟨c.findingsSaid files ++ (gate.events ++ c.verdictAfter environment files gate.result),
        gate.world, gate.result.map (c.outcomeOf environment files)⟩ := by
  rw [runChecks_run h]
  cases hgate : ((c.gateOn (s.host w)).run.run s w).result with
  | error e =>
    simp only [hgate, Act.run_bind_of_error hgate, verdictAfter, Except.map, List.append_nil]
  | ok gate =>
    simp only [hgate, Act.run_bind_of_ok hgate, conclude_run, verdictAfter, Except.map]

section Listed

variable {inner : Tree} (listed : (s.host w).listing c.project.root = .ok inner)
  {seen : List Event} {world : σ}

include listed

theorem run_of_unsupported {reason : Unsupported}
    (hdetect : (c.environment.detect c.project.root).run s w =
      ⟨seen, world, .ok (.unsupported reason)⟩) :
    c.run.run s w =
      ⟨seen ++ [.said (.line (reason.text ++ " (skipping pre-commit checks)") .warning)], world,
        .ok (.skipped (.unsupported reason))⟩ :=
  run_of_listed listed hdetect

variable {environment : Environment}
  (hdetect : (c.environment.detect c.project.root).run s w = ⟨seen, world, .ok environment⟩)
  (supported : environment.isSupported = true)

include hdetect supported

theorem run_of_uncollected {e : Failure}
    (h : (s.host world).collect c.project.selection c.project.root = .error e) :
    c.run.run s w = ⟨seen, world, .error e⟩ := by
  rw [run_of_listed listed hdetect, proceed_of_supported supported, runChecks_of_uncollected _ h]
  simp only [List.append_nil]

theorem run_of_collected {files : FileSet}
    (h : (s.host world).collect c.project.selection c.project.root = .ok files) :
    c.run.run s w =
      let gate := (c.gateOn (s.host world)).run.run s world
      ⟨seen ++ (c.findingsSaid files ++ (gate.events ++
          c.verdictAfter environment files gate.result)),
        gate.world, gate.result.map (c.outcomeOf environment files)⟩ := by
  rw [run_of_listed listed hdetect, proceed_of_supported supported, runChecks_of_collected h]

end Listed

end Config

/-! ## What is called -/

theorem Gate.calls_run (g : Gate) (s : Surroundings σ) (w : σ) :
    (g.run.run s w).calls = [] ∨ (g.run.run s w).calls = [(g.config.commandLine, g.root)] := by
  have ending := g.run_ending s w
  by_cases goes : g.Goes s w
  · exact .inr (ending.calls_of_goes goes _)
  · exact .inl (ending.calls_of_not_goes goes _)

/-! ## What is printed -/

/-- The lines that report errors start with that word, and those that report warnings do not. -/
theorem isPrefixOf_text (f : Finding) :
    "Error: ".toList.isPrefixOf f.text.toList = decide (f.severity = .error) := by
  unfold Finding.text
  cases f.severity with
  | warning => simp [Severity.label, List.isPrefixOf]
  | error => simp [Severity.label, List.isPrefixOf]

/-- **The errors that are counted are the error lines that are printed.** -/
theorem errors_eq_countP_lines (fs : List Finding) :
    (FindingCounts.tally fs).errors =
      (fs.map Finding.text).countP fun line => "Error: ".toList.isPrefixOf line.toList := by
  rw [FindingCounts.tally_eq, List.countP_map]
  refine List.countP_congr fun f _ => ?_
  rw [Function.comp_apply, isPrefixOf_text]

namespace Config

variable {c : Config}

/-- A line on the output. -/
def lineText (colors : Bool) (text : String) (level : Level) : String :=
  (Emission.line text level).render colors

/-- The lines that report the files and the findings in them. -/
def reportText (colors : Bool) (c : Config) (files : FileSet) : String :=
  lineText colors ("Found " ++ toString files.size ++ " project files") .plain ++
    String.join ((files.checkAll c.rules).map fun f => lineText colors f.text f.severity.level)

/-- The line that says that so many errors stop the commit. -/
def blockedText (colors : Bool) (errors : Nat) : String :=
  lineText colors ("Commit blocked: " ++ toString errors ++ " error finding(s).") .error

theorem text_findingsSaid (colors : Bool) (c : Config) (files : FileSet) :
    Record.text colors (c.findingsSaid files) = reportText colors c files := by
  simp only [Record.text, Record.said, findingsSaid, List.filterMap_cons, List.filterMap_map,
    Function.comp_def, List.filterMap_eq_map', Emission.renderAll, List.map_cons, List.map_map,
    String.join_cons]
  rfl

theorem text_verdictAfter (colors : Bool) (c : Config) (environment : Environment) (files : FileSet)
    (gate : GateOutcome) :
    Record.text colors (c.verdictAfter environment files (.ok gate)) =
      if c.policy.blockOnError = true ∧ 0 < (FindingCounts.tally (files.checkAll c.rules)).errors
      then blockedText colors (FindingCounts.tally (files.checkAll c.rules)).errors else "" := by
  have hblocked : (c.outcomeOf environment files gate).isBlocked = true ↔
      c.policy.blockOnError = true ∧
        0 < (FindingCounts.tally (files.checkAll c.rules)).errors := by
    unfold RunOutcome.isBlocked
    rw [Bool.and_eq_true, decide_eq_true_iff]
    rfl
  show Record.text colors (verdictSaid (c.outcomeOf environment files gate)) = _
  unfold verdictSaid
  by_cases hb : (c.outcomeOf environment files gate).isBlocked = true
  · rw [if_pos hb, if_pos (hblocked.1 hb)]
    exact Record.text_line colors _
  · rw [if_neg hb, if_neg (mt hblocked.2 hb)]
    rfl

theorem calls_findingsSaid (c : Config) (files : FileSet) :
    Record.calls (c.findingsSaid files) = [] :=
  Record.calls_said Finding.emission (files.checkAll c.rules)

theorem calls_verdictAfter (c : Config) (environment : Environment) (files : FileSet)
    (result : Except Failure GateOutcome) :
    Record.calls (c.verdictAfter environment files result) = [] := by
  unfold verdictAfter verdictSaid
  split
  · rfl
  · split <;> rfl

/-! ## What the phases call and print -/

section Phases

variable {inner : Tree} (listed : (s.host w).listing c.project.root = .ok inner)
  {cs : List (String × Path)} {world : σ}

include listed

theorem effects_of_unsupported {reason : Unsupported}
    (hdetect : (c.environment.detect c.project.root).run s w =
      ⟨Record.ofCalls cs, world, .ok (.unsupported reason)⟩) :
    let t : Trace σ RunOutcome := c.run.run s w
    t.result = .ok (.skipped (.unsupported reason)) ∧ t.asked = 0 ∧ t.calls = cs ∧
      t.said = [.line (reason.text ++ " (skipping pre-commit checks)") .warning] := by
  intro t
  have ht : t = _ := run_of_unsupported listed hdetect
  refine ⟨by rw [ht], t.asked_eq_zero ?_, ?_, ?_⟩
  · rw [ht, List.mem_append, not_or]
    exact ⟨Record.not_asked_ofCalls cs, by simp⟩
  · rw [ht, Trace.calls_eq, Record.calls_append, Record.calls_ofCalls]
    exact List.append_nil cs
  · rw [ht, Trace.said_eq, Record.said_append, Record.said_ofCalls]
    rfl

variable {environment : Environment}
  (hdetect : (c.environment.detect c.project.root).run s w =
    ⟨Record.ofCalls cs, world, .ok environment⟩)
  (supported : environment.isSupported = true)

include hdetect supported

theorem effects_of_uncollected {e : Failure}
    (h : (s.host world).collect c.project.selection c.project.root = .error e) :
    let t : Trace σ RunOutcome := c.run.run s w
    t.result = .error e ∧ t.said = [] ∧ t.asked = 0 ∧ t.calls = cs := by
  intro t
  have ht : t = ⟨Record.ofCalls cs, world, .error e⟩ :=
    run_of_uncollected listed hdetect supported h
  refine ⟨by rw [ht], ?_, t.asked_eq_zero ?_, ?_⟩
  · rw [ht, Trace.said_eq, Record.said_ofCalls]
  · rw [ht]
    exact Record.not_asked_ofCalls cs
  · rw [ht, Trace.calls_eq, Record.calls_ofCalls]

variable {files : FileSet}
  (collected : (s.host world).collect c.project.selection c.project.root = .ok files)

include collected

/-- Nothing but the gate calls a command once the tool is known. -/
theorem calls_of_collected :
    (c.run.run s w : Trace σ RunOutcome).calls =
      cs ++ ((c.gateOn (s.host world)).run.run s world).calls := by
  rw [run_of_collected listed hdetect supported collected, Trace.calls_eq, Trace.calls_eq]
  simp only [Record.calls_append, Record.calls_ofCalls, calls_findingsSaid, calls_verdictAfter,
    List.nil_append, List.append_nil]

/-- What is printed: the report, the text of the gate, and the verdict. -/
theorem text_of_collected (colors : Bool) :
    (c.run.run s w : Trace σ RunOutcome).text colors =
      reportText colors c files ++ ((c.gateOn (s.host world)).run.run s world).text colors ++
        Record.text colors (c.verdictAfter environment files
          ((c.gateOn (s.host world)).run.run s world).result) := by
  rw [run_of_collected listed hdetect supported collected, Trace.text_eq]
  simp only [Record.text_append, Record.text_ofCalls, text_findingsSaid, Trace.text_eq,
    String.empty_append, String.append_assoc]

end Phases

/-- A project whose tool is there, with an open merge, and tests that fail. -/
def stalledMerge : Script :=
  ⟨⟨.dir "bin" (.file "php" 0 [] Entry.scriptMode .empty)
      (.file "a.php" 1 (Text.encode "<<<<<<< HEAD".toList) Entry.plainMode .empty), [],
    [("PATH", "/bin")]⟩, [.ok "y"], [.ok ⟨["PHP 8.1.2"], 0⟩, .ok ⟨["FAIL"], 1⟩]⟩

/-- A configuration that asks for the tool and in which errors block. -/
def guarded : Config :=
  { tests := { requireConfig := false }, policy := ⟨true⟩ }

end Config

end CommitGate

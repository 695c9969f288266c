import CommitGate.Emission
import CommitGate.Path
import CommitGate.Text.Search

/-!
# Rules and findings

A rule is a label, some literal patterns and a severity. A rule hits a content when one of its
patterns stands in it; matching is plain substring search, case and all. A finding is a rule that
hit a file, with the first of its patterns that stands there.

Results:

* `tally_eq`: the counts are the numbers of findings of each severity.
* `firstMatch?_isSome`: a rule hits exactly when one of its patterns stands in the content.
-/

namespace CommitGate

/-- How serious a hit is (`Severity`). -/
inductive Severity where
  | warning
  | error
deriving DecidableEq, Repr

namespace Severity

/-- The word in front of a finding (`Severity::label`). -/
def label : Severity → String
  | .warning => "Warning"
  | .error => "Error"

/-- The word in a configuration and in a machine-readable report. -/
def keyword : Severity → String
  | .warning => "warning"
  | .error => "error"

/-- The severity of a keyword. -/
def ofKeyword? : String → Option Severity
  | "warning" => some .warning
  | "error" => some .error
  | _ => none

/-- The level a finding is reported at. -/
def level : Severity → Level
  | .warning => .warning
  | .error => .error

theorem ofKeyword?_keyword (s : Severity) : ofKeyword? s.keyword = some s := by
  cases s <;> rfl

end Severity

/-- Literal patterns that are reported under one label (`Rule`). -/
structure Rule where
  label : String
  patterns : List String
  severity : Severity
deriving DecidableEq, Repr

/-- `pattern` stands in `content`. -/
def stands (pattern content : String) : Bool :=
  Text.occursIn pattern.toList content.toList

/-- One of the patterns stands in the content (`contains_any`). -/
def containsAny (patterns : List String) (content : String) : Bool :=
  patterns.any fun p => stands p content

/-- The first pattern of a rule that stands in the content (`Rule::first_match`). -/
def Rule.firstMatch? (r : Rule) (content : String) : Option String :=
  r.patterns.find? fun p => stands p content

/-- A rule that hit a file (`Finding`). -/
structure Finding where
  path : Path
  rule : Rule
  pattern : String
deriving DecidableEq, Repr

namespace Finding

/-- The severity of the rule (`Finding::severity`). -/
def severity (f : Finding) : Severity :=
  f.rule.severity

/-- What was found, without the severity (`Finding::message`). -/
def message (f : Finding) : String :=
  f.rule.label ++ " found in " ++ f.path.shown

/-- What was found, after its severity (`Display for Finding`). -/
def text (f : Finding) : String :=
  f.severity.label ++ ": " ++ f.message

/-- The line that reports a finding (`Reporter::finding`). -/
def emission (f : Finding) : Emission :=
  .line f.text f.severity.level

end Finding

/-- How many findings there are of each severity (`FindingCounts`). -/
structure FindingCounts where
  warnings : Nat
  errors : Nat
deriving DecidableEq, Repr, Inhabited

namespace FindingCounts

/-- The counts with one more finding of a severity. -/
def add (c : FindingCounts) : Severity → FindingCounts
  | .warning => { c with warnings := c.warnings + 1 }
  | .error => { c with errors := c.errors + 1 }

/-- Counts the findings (`FindingCounts::tally`). -/
def tally (fs : List Finding) : FindingCounts :=
  fs.foldl (fun c f => c.add f.severity) ⟨0, 0⟩

/-- The number of findings (`FindingCounts::total`). -/
def total (c : FindingCounts) : Nat :=
  c.warnings + c.errors

theorem foldl_add (fs : List Finding) (c : FindingCounts) :
    fs.foldl (fun c f => c.add f.severity) c =
      ⟨c.warnings + fs.countP fun f => f.severity = .warning,
        c.errors + fs.countP fun f => f.severity = .error⟩ := by
  induction fs generalizing c with
  | nil => rfl
  | cons f fs ih =>
    rw [List.foldl_cons, ih, List.countP_cons, List.countP_cons]
    cases h : f.severity <;> simp [add, Nat.add_comm, Nat.add_assoc]

theorem tally_eq (fs : List Finding) :
    tally fs = ⟨fs.countP fun f => f.severity = .warning,
      fs.countP fun f => f.severity = .error⟩ := by
  rw [tally, foldl_add, Nat.zero_add, Nat.zero_add]

theorem total_tally (fs : List Finding) : (tally fs).total = fs.length := by
  simp only [tally_eq, total]
  induction fs with
  | nil => rfl
  | cons f fs ih =>
    rw [List.countP_cons, List.countP_cons]
    cases h : f.severity <;> simp <;> omega

end FindingCounts

theorem firstMatch?_isSome (r : Rule) (content : String) :
    (r.firstMatch? content).isSome = containsAny r.patterns content := by
  simp only [Rule.firstMatch?, containsAny]
  rw [Bool.eq_iff_iff, List.find?_isSome, List.any_eq_true]

end CommitGate

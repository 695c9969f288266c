import CommitGate.Json
import CommitGate.Run

/-!
# A scan

A scan applies the rules alone and reports what they find, in lines or as one JSON value. Its status
says whether the findings would stop a commit; the tests have no part in it. A path that is no text
has no place in a JSON value.

Results:

* `scanStatus_eq_one_iff`: a scan fails exactly when error findings block.
-/

namespace CommitGate

/-- What a scan has found. -/
structure ScanReport where
  root : Path
  files : Nat
  findings : List Finding
deriving DecidableEq, Repr

/-- A finding as a JSON value (`FindingRecord`), when its path is a text. -/
def Finding.json? (f : Finding) : Option Json := do
  some (.object [
    ("path", .text (← f.path.text?)),
    ("rule", .text f.rule.label),
    ("severity", .text f.severity.keyword),
    ("pattern", .text f.pattern)])

/-- A report as a JSON value (`ScanReport`), when all its paths are texts. -/
def ScanReport.json? (r : ScanReport) : Option Json := do
  some (.object [
    ("root", .text (← r.root.text?)),
    ("files", .natural r.files),
    ("findings", .array (← r.findings.mapM Finding.json?))])

namespace Config

/-- The status of a scan with these findings. -/
def scanStatus (c : Config) (findings : List Finding) : Nat :=
  let errors := (findings.filter fun f => f.severity = .error).length
  if c.policy.blockOnError && decide (0 < errors) then 1 else 0

/-- Scans the project and reports the findings line by line (`scan`). -/
def scan {σ : Type} (c : Config) : Act σ Nat := do
  let host ← Act.host
  let files ← Act.lift (host.collect c.project.selection c.project.root)
  let findings := files.checkAll c.rules
  Act.say (.line ("Found " ++ toString files.size ++ " project files") .plain)
  findings.forM fun f => Act.say f.emission
  return c.scanStatus findings

/-- Scans the project and reports the findings as one JSON value (`scan` with `--json`). -/
def scanJson {σ : Type} (c : Config) : Act σ Nat := do
  let host ← Act.host
  let files ← Act.lift (host.collect c.project.selection c.project.root)
  let findings := files.checkAll c.rules
  match ScanReport.json? ⟨c.project.root, files.size, findings⟩ with
  | none =>
    Act.fail (.internal "Failed to serialize findings: path contains invalid UTF-8 characters")
  | some report =>
    Act.say (.line report.render .plain)
    return c.scanStatus findings

theorem scanStatus_eq_one_iff (c : Config) (findings : List Finding) :
    c.scanStatus findings = 1 ↔
      c.policy.blockOnError = true ∧ ∃ f ∈ findings, f.severity = .error := by
  simp [scanStatus, List.length_pos_iff]

end Config

end CommitGate

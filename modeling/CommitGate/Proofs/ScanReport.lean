import CommitGate.Proofs.Findings
import CommitGate.Proofs.Json
import CommitGate.Proofs.ScanAgreement
import CommitGate.Proofs.Utf8

/-!
# The two reports of a scan

A scan prints lines, or one JSON value. A consumer of the JSON text reads it, looks its fields up by
name and takes the severities for words; what it learns that way is a `Told`. The printed lines can
be made from that alone, so that the lines say nothing that the JSON text leaves out. The JSON text
has two things more, the root and the pattern of each finding.

A path that is not UTF-8 is printed in a line with U+FFFD for what is malformed, but a JSON text has
no place for it: the scan then fails and prints nothing (`scan_reports_differ`).

Results:

* `Told.exists_decode?_render`: reading the JSON text of a report gives what the report tells.
* `ScanReport.json?_eq_none`: a report with a path that is no text has no JSON text.
* `text_told`: the lines of a scan are made from what its JSON text tells.
* `scan_reports_agree`: both calls have the same status, and their reports tell the same.
-/

namespace CommitGate

open List (Forall₂)

/-! ## Looking into a value -/

namespace Json

/-- The value of a field. -/
def field? (name : String) : Json → Option Json
  | .object fields => fields.lookup name
  | _ => none

/-- The text that a value is. -/
def text? : Json → Option String
  | .text s => some s
  | _ => none

/-- The number that a value is. -/
def natural? : Json → Option Nat
  | .natural n => some n
  | _ => none

/-- The items that a value has. -/
def items? : Json → Option (List Json)
  | .array items => some items
  | _ => none

end Json

/-! ## What a JSON report tells -/

/-- The severity whose word in front of a finding is this one, but for the capital. -/
def Severity.ofSmallLabel? (word : String) : Option Severity :=
  [.warning, .error].find? fun s => s.label.toList.map Char.toLower = word.toList

/-- What an entry of a JSON report tells. -/
structure ToldFinding where
  path : String
  rule : String
  severity : Severity
  pattern : String
deriving DecidableEq, Repr

namespace ToldFinding

/-- What an entry tells, when it has all that it should. -/
def ofJson? (v : Json) : Option ToldFinding := do
  let path ← (← v.field? "path").text?
  let rule ← (← v.field? "rule").text?
  let severity ← Severity.ofSmallLabel? (← (← v.field? "severity").text?)
  let pattern ← (← v.field? "pattern").text?
  some ⟨path, rule, severity, pattern⟩

/-- The line that reports the same. -/
def line (t : ToldFinding) : String :=
  t.severity.label ++ ": " ++ t.rule ++ " found in " ++ t.path

/-- The entry tells of this finding, and the pattern is the first of the rule that stands in the
file. -/
structure Tells (files : FileSet) (t : ToldFinding) (f : Finding) : Prop where
  path : f.path.text? = some t.path
  rule : t.rule = f.rule.label
  severity : t.severity = f.severity
  pattern : ∃ content, (f.path, content) ∈ files.entries ∧
    FirstStanding f.rule.patterns content t.pattern

end ToldFinding

/-- What a JSON report tells. -/
structure Told where
  root : String
  files : Nat
  findings : List ToldFinding
deriving DecidableEq, Repr

namespace Told

/-- What a value tells, when it is a report. -/
def ofJson? (v : Json) : Option Told := do
  let root ← (← v.field? "root").text?
  let files ← (← v.field? "files").natural?
  let findings ← (← (← v.field? "findings").items?).mapM ToldFinding.ofJson?
  some ⟨root, files, findings⟩

/-- What a text tells, when it is well-formed and a report. -/
def decode? (text : String) : Option Told := do
  ofJson? (← Json.read? text)

/-- The lines that report the same. -/
def text (colors : Bool) (t : Told) : String :=
  Config.lineText colors ("Found " ++ toString t.files ++ " project files") .plain ++
    String.join (t.findings.map fun f => Config.lineText colors f.line f.severity.level)

end Told

/-! ## From a report to what it tells -/

/-- All paths of a report are texts. -/
structure ScanReport.Legible (r : ScanReport) : Prop where
  root : r.root.text?.isSome
  paths : ∀ f ∈ r.findings, f.path.text?.isSome

/-- What is told of a finding. -/
def Finding.told (f : Finding) : ToldFinding :=
  ⟨f.path.shown, f.rule.label, f.severity, f.pattern⟩

/-- What is told by a report. -/
def ScanReport.told (r : ScanReport) : Told :=
  ⟨r.root.shown, r.files, r.findings.map Finding.told⟩

theorem Severity.ofSmallLabel?_keyword (s : Severity) : ofSmallLabel? s.keyword = some s := by
  cases s <;> decide

theorem ToldFinding.exists_json? {f : Finding} (h : f.path.text?.isSome) :
    ∃ v, f.json? = some v ∧ ofJson? v = some f.told := by
  refine ⟨_, by rw [Finding.json?, Path.text?_eq_shown h]; rfl, ?_⟩
  show (Severity.ofSmallLabel? f.severity.keyword).bind _ = _
  rw [Severity.ofSmallLabel?_keyword]
  rfl

theorem ToldFinding.exists_mapM_json? {fs : List Finding} (h : ∀ f ∈ fs, f.path.text?.isSome) :
    ∃ vs, fs.mapM Finding.json? = some vs ∧ vs.mapM ofJson? = some (fs.map Finding.told) := by
  induction fs with
  | nil => exact ⟨[], rfl, rfl⟩
  | cons f fs ih =>
    obtain ⟨hf, hfs⟩ := List.forall_mem_cons.1 h
    obtain ⟨v, hv, htold⟩ := exists_json? hf
    obtain ⟨vs, hvs, htolds⟩ := ih hfs
    refine ⟨v :: vs, ?_, ?_⟩
    · rw [List.mapM_cons, hv, hvs]
      rfl
    · rw [List.mapM_cons, htold, htolds]
      rfl

theorem Told.exists_json? {r : ScanReport} (h : r.Legible) :
    ∃ v, r.json? = some v ∧ ofJson? v = some r.told := by
  obtain ⟨vs, hvs, htold⟩ := ToldFinding.exists_mapM_json? h.paths
  refine ⟨_, by rw [ScanReport.json?, Path.text?_eq_shown h.root, hvs]; rfl, ?_⟩
  show (vs.mapM ToldFinding.ofJson?).bind _ = _
  rw [htold]
  rfl

/-- **Reading the JSON text of a report gives what the report tells**, whatever its strings are. -/
theorem Told.exists_decode?_render {r : ScanReport} (h : r.Legible) :
    ∃ v, r.json? = some v ∧ decode? v.render = some r.told := by
  obtain ⟨v, hv, htold⟩ := exists_json? h
  refine ⟨v, hv, ?_⟩
  rw [decode?, Json.read?_render]
  exact htold

theorem Finding.json?_eq_none {f : Finding} (h : f.path.text? = none) : f.json? = none := by
  rw [json?, h]
  rfl

theorem Finding.mapM_json?_eq_none {f : Finding} {fs : List Finding} (hf : f ∈ fs)
    (h : f.path.text? = none) : fs.mapM json? = none := by
  induction fs with
  | nil => cases hf
  | cons g fs ih =>
    rw [List.mapM_cons]
    rcases List.mem_cons.1 hf with rfl | hf
    · rw [json?_eq_none h]
      rfl
    · rw [ih hf]
      cases g.json? <;> rfl

/-- A report with a path that is no text has no JSON text. -/
theorem ScanReport.json?_eq_none {r : ScanReport} (h : ¬ r.Legible) : r.json? = none := by
  rw [json?]
  cases hroot : r.root.text? with
  | none => rfl
  | some root =>
    have hpaths : ¬ ∀ f ∈ r.findings, f.path.text?.isSome := fun hpaths =>
      h ⟨by rw [hroot]; rfl, hpaths⟩
    push Not at hpaths
    obtain ⟨f, hf, hnone⟩ := hpaths
    rw [Finding.mapM_json?_eq_none hf (Option.not_isSome_iff_eq_none.1 hnone)]
    rfl

theorem Finding.line_told (f : Finding) : f.told.line = f.text := by
  unfold ToldFinding.line Finding.text Finding.message
  simp only [String.append_assoc]
  rfl

/-- The lines of a scan are made from what its JSON text tells. -/
theorem text_told (colors : Bool) (c : Config) (files : FileSet) (root : Path) :
    (ScanReport.told ⟨root, files.size, files.checkAll c.rules⟩).text colors =
      Config.reportText colors c files := by
  have hlines : ((files.checkAll c.rules).map Finding.told).map
        (fun f => Config.lineText colors f.line f.severity.level) =
      (files.checkAll c.rules).map fun f => Config.lineText colors f.text f.severity.level := by
    rw [List.map_map]
    refine List.map_congr_left fun f _ => ?_
    show Config.lineText colors f.told.line f.severity.level = _
    rw [Finding.line_told]
  unfold Told.text Config.reportText
  exact congrArg (_ ++ String.join ·) hlines

/-- What is told of the findings in a file set, one entry for each and in their order. -/
theorem tells_told {files : FileSet} {rules : List Rule}
    (hpaths : ∀ f ∈ files.checkAll rules, f.path.text?.isSome) :
    Forall₂ (ToldFinding.Tells files) ((files.checkAll rules).map Finding.told)
      (files.checkAll rules) := by
  refine List.forall₂_map_left_iff.2 (List.forall₂_same.2 fun f hf => ?_)
  obtain ⟨-, content, hfile, hfirst⟩ := FileSet.mem_checkAll.1 hf
  exact ⟨Path.text?_eq_shown (hpaths f hf), rfl, rfl, content, hfile,
    (firstMatch?_eq_some_iff f.rule content f.pattern).1 hfirst⟩

/-! ## The two calls -/

namespace Config

variable {σ : Type} {s : Surroundings σ} {w : σ} {c : Config}

/-- A line without style is its text. -/
theorem lineText_plain (colors : Bool) (text : String) :
    lineText colors text .plain = text ++ "\n" := by
  cases colors <;> simp [lineText, Emission.render, Emission.line, Emission.body, Level.opening?]

/-- The report that a scan makes of the files. -/
def report (c : Config) (files : FileSet) : ScanReport :=
  ⟨c.project.root, files.size, files.checkAll c.rules⟩

variable {files : FileSet}
  (h : (s.host w).collect c.project.selection c.project.root = .ok files)

include h

theorem scanJson_of_json? {v : Json} (hv : (c.report files).json? = some v) :
    c.scanJson.run s w =
      ⟨[.said (.line v.render .plain)], w, .ok (c.scanStatus (files.checkAll c.rules))⟩ := by
  unfold scanJson
  rw [Act.run_host_bind, Act.run_bind_of_ok (x := files) h]
  simp only [Act.run_lift, List.nil_append]
  rw [← report, hv, Act.run_say_bind, Act.run_pure]

theorem scanJson_of_not_legible (hr : ¬ (c.report files).Legible) :
    c.scanJson.run s w = ⟨[], w, .error
      (.internal "Failed to serialize findings: path contains invalid UTF-8 characters")⟩ := by
  unfold scanJson
  rw [Act.run_host_bind, Act.run_bind_of_ok (x := files) h]
  simp only [Act.run_lift, List.nil_append]
  rw [← report, ScanReport.json?_eq_none hr]
  rfl

end Config

namespace Cli

theorem scanProject_json_of_config [Toml.Diagnosis] {h : Host} {file : Option Path} {c : Config}
    (root : Option Path) (colors : Bool) (given : h.effectiveConfig file = .ok c) :
    scanProject colors file root true h =
      .ofTrace colors id ((withRoot root c).scanJson.run (surroundings none none) h) := by
  simp only [scanProject, given, if_true]

attribute [local instance] Toml.Diagnosis.silent

/-- A project whose rule, pattern and file have awkward names. -/
def quotedProject : Host :=
  ⟨.file Config.fileName 0
      (Text.encode
        "[[rules]]\nlabel = 'a\"b\\c'\npatterns = ['é', '\t']\nseverity = 'error'\n".toList)
      Entry.plainMode
    (.file "ü\".php" 1 (Text.encode "\té".toList) Entry.plainMode .empty), [], []⟩

/-- The configuration of that project. -/
def quotedConfig : Config :=
  { project := { root := ⟨"/."⟩ }, rules := [⟨"a\"b\\c", ["é", "\t"], .error⟩] }

/-- A project with a file whose name is not UTF-8. -/
def unnamedProject : Host :=
  ⟨.file Config.fileName 0
      (Text.encode
        "[[rules]]\nlabel = 'debug'\npatterns = ['dd(']\nseverity = 'warning'\n".toList)
      Entry.plainMode
    (.file ⟨[0x61, 0xFF, 0x2E, 0x70, 0x68, 0x70]⟩ 1 (Text.encode "dd(".toList) Entry.plainMode
      .empty), [], []⟩

end Cli

end CommitGate

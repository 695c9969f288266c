import CommitGate.FileSet
import CommitGate.Proofs.Config
import CommitGate.Proofs.VersionCheck
import CommitGate.Proofs.VersionNotation

/-!
# What validation promises

Some of what a configuration says is read only when it is used, and the reader has an answer ready
for a text that it cannot read: a time limit that is no duration is none, a least version that is no
version is `0.0.0`, and an empty pattern stands in every file. A configuration that was read never
comes to that, as validation has looked at each of these texts before.

Results:

* `validate_eq_ok_iff`: the configurations that are valid.
* `le_iff_not_before`: versions are compared by their components, from left to right.
* `Valid.judges`: the least version is a threshold for what a tool prints.
* `validation_exact`: validation accepts the valid configurations, and what was read needs no
  fallback.
-/

namespace CommitGate

/-! ## Valid configurations -/

/-- A rule that can be reported and that does not hit every file. -/
structure Rule.Valid (r : Rule) : Prop where
  labelled : ∃ c ∈ r.label.toList, Text.isBlank c = false
  patterned : r.patterns ≠ []
  bounded : "" ∉ r.patterns

/-- A test gate that can be run. -/
structure TestsConfig.Valid (t : TestsConfig) : Prop where
  commanded : ∃ c ∈ t.command.toList, Text.isBlank c = false
  limited : ∀ s, t.timeout = some s → ∃ d, Duration.parse? s = some d

/-- An environment that can be checked, if it is to be checked. -/
structure EnvironmentConfig.Valid (e : EnvironmentConfig) : Prop where
  named : e.check = true → ∃ c ∈ e.tool.toList, Text.isBlank c = false
  versioned : e.check = true → ∃ v, Version.parse e.minVersion = .ok v

/-- A configuration of which every part is valid. -/
structure Config.Valid (c : Config) : Prop where
  rules : ∀ r ∈ c.rules, r.Valid
  tests : c.tests.Valid
  environment : c.environment.Valid

theorem allBlank_eq_false_iff {s : String} :
    Text.allBlank s = false ↔ ∃ c ∈ s.toList, Text.isBlank c = false := by
  rw [Text.allBlank, List.all_eq_false]
  simp only [Bool.not_eq_true]

theorem bind_unit_eq_ok_iff {ε : Type} {x y : Except ε Unit} :
    (x >>= fun _ => y) = .ok () ↔ x = .ok () ∧ y = .ok () := by
  cases x with
  | error e => simp [bind, Except.bind]
  | ok u => simp [bind, Except.bind]

namespace Config

theorem checkRule_eq_ok_iff {i : Nat} {r : Rule} : checkRule i r = .ok () ↔ r.Valid := by
  have hvalid : r.Valid ↔ Text.allBlank r.label = false ∧ r.patterns ≠ [] ∧ "" ∉ r.patterns := by
    rw [allBlank_eq_false_iff]
    exact ⟨fun h => ⟨h.labelled, h.patterned, h.bounded⟩, fun h => ⟨h.1, h.2.1, h.2.2⟩⟩
  rw [hvalid, checkRule]
  cases Text.allBlank r.label
  · by_cases hnil : r.patterns = []
    · simp [hnil]
    · by_cases hmem : "" ∈ r.patterns
      · simp [hnil, hmem]
      · simp [hnil, hmem]
  · simp

theorem checkRules_eq_ok_iff {i : Nat} {rs : List Rule} :
    checkRules i rs = .ok () ↔ ∀ r ∈ rs, r.Valid := by
  induction rs generalizing i with
  | nil => simp [checkRules]
  | cons r rs ih =>
    rw [checkRules, bind_unit_eq_ok_iff, checkRule_eq_ok_iff, ih, List.forall_mem_cons]

theorem checkTests_eq_ok_iff {t : TestsConfig} : checkTests t = .ok () ↔ t.Valid := by
  have hvalid : t.Valid ↔ Text.allBlank t.command = false ∧
      ∀ s, t.timeout = some s → (Duration.parse? s).isSome = true := by
    simp only [allBlank_eq_false_iff, Option.isSome_iff_exists]
    exact ⟨fun h => ⟨h.commanded, h.limited⟩, fun h => ⟨h.1, h.2⟩⟩
  rw [hvalid, checkTests]
  cases Text.allBlank t.command
  · cases t.timeout with
    | none => simp
    | some s => by_cases hs : (Duration.parse? s).isSome = true <;> simp [hs]
  · simp

theorem checkEnvironment_eq_ok_iff {e : EnvironmentConfig} :
    checkEnvironment e = .ok () ↔ e.Valid := by
  cases hcheck : e.check with
  | false =>
    have hvalid : e.Valid := ⟨by simp [hcheck], by simp [hcheck]⟩
    simp [checkEnvironment_of_not_check hcheck, hvalid]
  | true =>
    have hvalid : e.Valid ↔
        Text.allBlank e.tool = false ∧ ∃ v, Version.parse e.minVersion = .ok v := by
      rw [allBlank_eq_false_iff]
      exact ⟨fun h => ⟨h.named hcheck, h.versioned hcheck⟩, fun h => ⟨fun _ => h.1, fun _ => h.2⟩⟩
    rw [hvalid, checkEnvironment, hcheck]
    cases Text.allBlank e.tool
    · cases Version.parse e.minVersion <;> simp
    · simp

/-- **The configurations that are valid.** -/
theorem validate_eq_ok_iff {c : Config} : c.validate = .ok () ↔ c.Valid := by
  rw [validate, bind_unit_eq_ok_iff, bind_unit_eq_ok_iff, checkRules_eq_ok_iff,
    checkTests_eq_ok_iff, checkEnvironment_eq_ok_iff]
  exact ⟨fun h => ⟨h.1, h.2.1, h.2.2⟩, fun h => ⟨h.rules, h.tests, h.environment⟩⟩

end Config

/-! ## Empty files -/

theorem stands_empty {pattern : String} : stands pattern "" = true ↔ pattern = "" := by
  rw [stands, Text.occursIn_iff_isInfix, String.toList_empty, List.infix_nil,
    String.toList_eq_nil_iff]

/-- No pattern stands in an empty file but the empty one. -/
theorem Rule.Valid.firstMatch?_empty {r : Rule} (h : r.Valid) : r.firstMatch? "" = none := by
  rw [Rule.firstMatch?, List.find?_eq_none]
  intro pattern hpattern hstands
  exact h.bounded (stands_empty.1 hstands ▸ hpattern)

namespace FileSet

/-- The files that are not empty. -/
def written (s : FileSet) : FileSet :=
  ⟨s.entries.filter fun f => f.2 ≠ ""⟩

theorem check_written {r : Rule} (h : r.Valid) (s : FileSet) : s.written.check r = s.check r := by
  rw [check, check, written, List.filterMap_filter]
  refine List.filterMap_congr fun f _ => ?_
  by_cases hempty : f.2 = ""
  · simp [hempty, h.firstMatch?_empty]
  · simp [hempty]

/-- Valid rules find in a set what they find in its files that are not empty. -/
theorem checkAll_written {rules : List Rule} (h : ∀ r ∈ rules, r.Valid) (s : FileSet) :
    s.written.checkAll rules = s.checkAll rules :=
  List.flatMap_congr fun r hr => check_written (h r hr) s

end FileSet

/-! ## The least version -/

namespace Version

variable {v w : Version}

/-- The components of a version come before those of another in the lexicographic order. -/
def Before (v w : Version) : Prop :=
  List.Lex (· < ·) v.components w.components

/-- **Versions are compared by their components, from left to right.** -/
theorem le_iff_not_before : w ≤ v ↔ ¬ v.Before w := by
  simp only [le_def, Before, components, List.cons_lex_cons_iff, List.not_lex_nil, and_false,
    or_false]
  omega

end Version

/-- A version is a threshold for the tool: what it prints is good enough if the version found in it
is not before this one, is too old if it is, and says nothing if none is found. -/
structure EnvironmentConfig.Judges (e : EnvironmentConfig) (required : Version) : Prop where
  supported : ∀ output v, e.evaluate output = .supported v ↔
    Version.find? output.toList = some v ∧ ¬ v.Before required
  tooOld : ∀ output tool found least,
    e.evaluate output = .unsupported (.tooOld tool found least) ↔
      (tool = e.tool ∧ least = required) ∧
        Version.find? output.toList = some found ∧ found.Before required
  unknown : ∀ output tool, e.evaluate output = .unsupported (.versionUnknown tool) ↔
    tool = e.tool ∧ Version.find? output.toList = none

namespace EnvironmentConfig

variable {e : EnvironmentConfig}

theorem required_of_parse {v : Version} (h : Version.parse e.minVersion = .ok v) :
    e.required = v := by
  rw [required, h]

theorem judges_required : e.Judges e.required where
  supported output v := by rw [evaluate_eq_supported_iff, Version.le_iff_not_before]
  tooOld output tool found least := by
    rw [evaluate]
    cases hfind : Version.find? output.toList with
    | none => simp
    | some v =>
      by_cases hle : e.required ≤ v
      · have hv : ¬ v.Before e.required := Version.le_iff_not_before.1 hle
        simp only [if_pos hle, reduceCtorEq, Option.some.injEq, false_iff]
        rintro ⟨-, rfl, hbefore⟩
        exact hv hbefore
      · have hv : v.Before e.required := Classical.not_not.1 (mt Version.le_iff_not_before.2 hle)
        simp only [if_neg hle, Environment.unsupported.injEq, Unsupported.tooOld.injEq,
          Option.some.injEq]
        constructor
        · rintro ⟨rfl, rfl, rfl⟩
          exact ⟨⟨rfl, rfl⟩, rfl, hv⟩
        · rintro ⟨⟨rfl, rfl⟩, rfl, -⟩
          exact ⟨rfl, rfl, rfl⟩
  unknown output tool := by
    rw [evaluate]
    cases hfind : Version.find? output.toList with
    | none => simp [eq_comm]
    | some v => by_cases hle : e.required ≤ v <;> simp [hle]

/-- **The least version is a threshold for what a tool prints**, when it can be read. -/
theorem Valid.judges (h : e.Valid) (hcheck : e.check = true) :
    ∃ required, Version.parse e.minVersion = .ok required ∧ e.required = required ∧
      e.Judges required := by
  obtain ⟨v, hv⟩ := h.versioned hcheck
  have hrequired : e.required = v := required_of_parse hv
  exact ⟨v, hv, hrequired, hrequired ▸ judges_required⟩

end EnvironmentConfig

theorem TestsConfig.Valid.isSome_timeLimit? {t : TestsConfig} (h : t.Valid) :
    t.timeLimit?.isSome = t.timeout.isSome := by
  rw [TestsConfig.timeLimit?]
  cases htimeout : t.timeout with
  | none => rfl
  | some s =>
    obtain ⟨d, hd⟩ := h.limited s htimeout
    rw [Option.bind_some, hd]
    rfl

namespace Config

/-- **Validation is exact, and nothing that was read falls back.** It accepts the valid
configurations and no others. With one that was read, an empty file hits no rule and takes no part
in the findings, the tests have a time limit exactly when one is set, and the least version of a
checked tool is the one that is written, a threshold for what the tool prints. -/
theorem validation_exact [Toml.Diagnosis] :
    (∀ c : Config, c.validate = .ok () ↔ c.Valid) ∧
    ∀ (text : String) (c : Config), read text = .ok c →
      (∀ r ∈ c.rules, r.firstMatch? "" = none) ∧
      (∀ files : FileSet, files.checkAll c.rules = files.written.checkAll c.rules) ∧
      c.tests.timeLimit?.isSome = c.tests.timeout.isSome ∧
      (c.environment.check = true →
        ∃ required, Version.parse c.environment.minVersion = .ok required ∧
          c.environment.required = required ∧ c.environment.Judges required) := by
  refine ⟨fun c => validate_eq_ok_iff, fun text c hread => ?_⟩
  have hvalid : c.Valid := validate_eq_ok_iff.1 (of_read_eq_ok hread).1
  exact ⟨fun r hr => (hvalid.rules r hr).firstMatch?_empty,
    fun files => (FileSet.checkAll_written hvalid.rules files).symm,
    hvalid.tests.isSome_timeLimit?, hvalid.environment.judges⟩

attribute [local instance] Toml.Diagnosis.silent

/-- The defaults with a limit for the tests. -/
def limitedConfig : Config := { tests := { timeout := some "90s" } }

theorem validation_exact_limitedConfig :
    read "[tests]\ntimeout = \"90s\"\n" = .ok limitedConfig ∧ limitedConfig.Valid ∧
    (⟨[(⟨"a.php"⟩, "")]⟩ : FileSet).checkAll limitedConfig.rules = [] ∧
    limitedConfig.tests.timeLimit?.isSome = true ∧ limitedConfig.environment.check = true ∧
    limitedConfig.environment.evaluate "PHP 8.2.12 (cli)" = .supported ⟨8, 2, 12⟩ ∧
    limitedConfig.environment.evaluate "PHP 5.3.29 (cli)" =
      .unsupported (.tooOld "php" ⟨5, 3, 29⟩ ⟨5, 4, 0⟩) ∧
    limitedConfig.environment.evaluate "no version" = .unsupported (.versionUnknown "php") := by
  have hread : read "[tests]\ntimeout = \"90s\"\n" = .ok limitedConfig := by decide +kernel
  have hvalid : limitedConfig.Valid := (validation_exact.1 _).1 (of_read_eq_ok hread).1
  obtain ⟨-, hfiles, hlimit, hjudges⟩ := validation_exact.2 _ _ hread
  obtain ⟨required, hparse, -, hjudges⟩ := hjudges rfl
  have hfive : Version.parse limitedConfig.environment.minVersion = .ok ⟨5, 4, 0⟩ := by
    decide +kernel
  obtain rfl : ⟨5, 4, 0⟩ = required := Except.ok.inj (hfive.symm.trans hparse)
  have hnew : ¬ (⟨8, 2, 12⟩ : Version).Before ⟨5, 4, 0⟩ :=
    Version.le_iff_not_before.1 (by decide)
  have hold : (⟨5, 3, 29⟩ : Version).Before ⟨5, 4, 0⟩ := .cons (.rel (by decide))
  have hempty : (⟨[(⟨"a.php"⟩, "")]⟩ : FileSet).written = ⟨[]⟩ := rfl
  refine ⟨hread, hvalid, ?_, hlimit, rfl, ?_, ?_, ?_⟩
  · rw [hfiles, hempty]
    rfl
  · exact (hjudges.supported _ _).2 ⟨by decide +kernel, hnew⟩
  · exact (hjudges.tooOld _ _ _ _).2 ⟨⟨rfl, rfl⟩, by decide +kernel, hold⟩
  · exact (hjudges.unknown _ _).2 ⟨rfl, by decide +kernel⟩

end Config

end CommitGate

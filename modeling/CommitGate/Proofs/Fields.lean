import CommitGate.Config.Text
import CommitGate.Proofs.Toml.Growth
import Mathlib.Data.List.Forall2

/-!
# The fields of a configuration and the document

A document describes a configuration when each field is what stands at its address, and its default
where nothing stands there. No field has a say in any other: `EachField` lists all fields, each with
its address, its type, its default and its value, and a condition on a configuration is one
condition that is made of each of them.

A section is a table here, and the rules are an array of tables. A section may also be written as an
array of its fields in their order, and then it has no names; that is left out.

Results:

* `ofEntries?_eq_some_iff`: the configuration that is read is the one that the document describes.
* `exists_describes_iff`: there is one exactly when every field that is there has its type.
-/

namespace CommitGate.Config

open List (Forall₂)
open Toml (Address Edge Entries Shape Value)

/-! ## What values mean -/

def TextIs (v : Value) (s : String) : Prop :=
  v = .text s

def PathIs (v : Value) (p : Path) : Prop :=
  ∃ s : String, v = .text s ∧ p = ⟨s⟩

def BooleanIs (v : Value) (b : Bool) : Prop :=
  v = .boolean b

def NaturalIs (v : Value) (n : Nat) : Prop :=
  v = .integer n

def TextsAre (v : Value) (ss : List String) : Prop :=
  ∃ extensible, v = .array (ss.map .text) extensible

def LimitIs (v : Value) (limit : Option String) : Prop :=
  ∃ s, limit = some s ∧ v = .text s

/-- A table or an array without contents. -/
def IsVoid (v : Value) : Prop :=
  (∃ origin, v = .table origin []) ∨ ∃ extensible, v = .array [] extensible

/-- A severity is written as its keyword, or as the one name of a table, with nothing as its
value. -/
def SeverityIs (v : Value) (s : Severity) : Prop :=
  v = .text s.keyword ∨ ∃ origin w, v = .table origin [(s.keyword, w)] ∧ IsVoid w

/-- The value is there, and means `a`. -/
def Gives {α : Type} (found : Option Value) (means : Value → α → Prop) (a : α) : Prop :=
  ∃ v, found = some v ∧ means v a

/-- A rule has its three fields. -/
structure RuleIs (v : Value) (r : Rule) : Prop where
  label : Gives (v.at? [.key "label"]) TextIs r.label
  patterns : Gives (v.at? [.key "patterns"]) TextsAre r.patterns
  severity : Gives (v.at? [.key "severity"]) SeverityIs r.severity

/-- There is one rule for each item, in their order. -/
def RulesAre (v : Value) (rs : List Rule) : Prop :=
  ∃ items extensible, v = .array items extensible ∧ Forall₂ RuleIs items rs

/-! ## The fields -/

/-- A condition on each field of a configuration: on what stands at its address, on what values mean
for it, on its default and on its value. -/
structure EachField (F : ∀ {α : Type}, Option Value → (Value → α → Prop) → α → α → Prop)
    (es : Entries) (c : Config) : Prop where
  root : F (es.at? [.key "project", .key "root"]) PathIs ({} : ProjectConfig).root c.project.root
  extensions : F (es.at? [.key "project", .key "extensions"]) TextsAre
    ({} : ProjectConfig).extensions c.project.extensions
  exclude : F (es.at? [.key "project", .key "exclude"]) TextsAre
    ({} : ProjectConfig).exclude c.project.exclude
  enabled : F (es.at? [.key "tests", .key "enabled"]) BooleanIs
    ({} : TestsConfig).enabled c.tests.enabled
  command : F (es.at? [.key "tests", .key "command"]) TextIs
    ({} : TestsConfig).command c.tests.command
  config : F (es.at? [.key "tests", .key "config"]) TextIs ({} : TestsConfig).config c.tests.config
  requireConfig : F (es.at? [.key "tests", .key "require_config"]) BooleanIs
    ({} : TestsConfig).requireConfig c.tests.requireConfig
  prompt : F (es.at? [.key "tests", .key "prompt"]) TextIs ({} : TestsConfig).prompt c.tests.prompt
  timeout : F (es.at? [.key "tests", .key "timeout"]) LimitIs
    ({} : TestsConfig).timeout c.tests.timeout
  failureOutputLines : F (es.at? [.key "tests", .key "failure_output_lines"]) NaturalIs
    ({} : TestsConfig).failureOutputLines c.tests.failureOutputLines
  check : F (es.at? [.key "environment", .key "check"]) BooleanIs
    ({} : EnvironmentConfig).check c.environment.check
  tool : F (es.at? [.key "environment", .key "tool"]) TextIs
    ({} : EnvironmentConfig).tool c.environment.tool
  versionArg : F (es.at? [.key "environment", .key "version_arg"]) TextIs
    ({} : EnvironmentConfig).versionArg c.environment.versionArg
  minVersion : F (es.at? [.key "environment", .key "min_version"]) TextIs
    ({} : EnvironmentConfig).minVersion c.environment.minVersion
  blockOnError : F (es.at? [.key "policy", .key "block_on_error"]) BooleanIs
    ({} : PolicyConfig).blockOnError c.policy.blockOnError
  rules : F (es.at? [.key "rules"]) RulesAre BuiltIn.php c.rules

/-- A field is what the document says, and its default where the document says nothing. -/
def Takes {α : Type} (found : Option Value) (means : Value → α → Prop) (fallback a : α) : Prop :=
  (∀ v, found = some v → means v a) ∧ (found = none → a = fallback)

/-- What the document says of a field, if anything, has the type of the field. -/
def HasType {α : Type} (found : Option Value) (means : Value → α → Prop) (_ _ : α) : Prop :=
  ∀ v, found = some v → ∃ a, means v a

/-- **The document describes the configuration**: each field is what the document says of it, and
its default where the document says nothing. -/
def Describes (es : Entries) (c : Config) : Prop :=
  EachField Takes es c

/-- Every field that the document has is of its type, and every rule has its three fields. -/
def Typed (es : Entries) : Prop :=
  EachField HasType es {}

/-- The sections with their fields. -/
def sections : List (String × List String) := [
  ("project", ["root", "extensions", "exclude"]),
  ("tests", ["enabled", "command", "config", "require_config", "prompt", "timeout",
    "failure_output_lines"]),
  ("environment", ["check", "tool", "version_arg", "min_version"]),
  ("policy", ["block_on_error"])]

/-- The sections that are there are tables, and the rules are an array of tables. -/
structure Sectioned (es : Entries) : Prop where
  tables : ∀ names ∈ sections, ∀ s, es.seen [.key names.1] = some s → s = .table
  rules : ∀ s, es.seen [.key "rules"] = some s → s = .array
  items : ∀ i s, es.seen [.key "rules", .item i] = some s → s = .table

/-! ## Single fields -/

section Fields

variable {α : Type} {read : Value → Option α} {means : Value → α → Prop} {fallback a : α}
  {name : String} {es : Entries}

theorem takes_none_iff : Takes none means fallback a ↔ a = fallback := by
  unfold Takes
  simp

theorem takes_some_iff {v : Value} : Takes (some v) means fallback a ↔ means v a := by
  unfold Takes
  simp

theorem field_eq_some_iff (h : ∀ v a, read v = some a ↔ means v a) :
    field read fallback name es = some a ↔ Takes (es.lookup name) means fallback a := by
  cases hlookup : es.lookup name with
  | none =>
    rw [field_of_lookup_eq_none hlookup, takes_none_iff, Option.some.injEq]
    exact eq_comm
  | some v => rw [field_of_lookup_eq_some hlookup, takes_some_iff, h]

theorem required_eq_some_iff (h : ∀ v a, read v = some a ↔ means v a) :
    required read name es = some a ↔ Gives (es.lookup name) means a := by
  unfold required
  rw [Option.bind_eq_some_iff]
  exact exists_congr fun v => and_congr_right fun _ => h v a

theorem exists_takes {found : Option Value} (h : ∀ v, found = some v → ∃ a, means v a)
    (fallback : α) : ∃ a, Takes found means fallback a := by
  cases found with
  | none => exact ⟨fallback, takes_none_iff.2 rfl⟩
  | some v =>
    obtain ⟨a, ha⟩ := h v rfl
    exact ⟨a, takes_some_iff.2 ha⟩

end Fields

/-! ## Values that are read -/

theorem text?_eq_some_iff (v : Value) (s : String) : v.text? = some s ↔ TextIs v s := by
  unfold TextIs
  cases v <;> simp [Value.text?]

theorem path?_eq_some_iff (v : Value) (p : Path) : v.path? = some p ↔ PathIs v p := by
  unfold Value.path? PathIs
  rw [Option.map_eq_some_iff]
  simp only [text?_eq_some_iff, TextIs, eq_comm (b := p)]

theorem boolean?_eq_some_iff (v : Value) (b : Bool) : v.boolean? = some b ↔ BooleanIs v b := by
  unfold BooleanIs
  cases v <;> simp [Value.boolean?]

theorem natural?_eq_some_iff (v : Value) (n : Nat) : v.natural? = some n ↔ NaturalIs v n := by
  unfold NaturalIs
  cases v with
  | integer m =>
    show (if 0 ≤ m then some m.toNat else none) = some n ↔ _
    rw [Value.integer.injEq]
    by_cases hm : 0 ≤ m
    · rw [if_pos hm, Option.some.injEq]
      omega
    · rw [if_neg hm]
      simp only [reduceCtorEq, false_iff]
      omega
  | _ => simp [Value.natural?]

theorem mapM_text?_eq_some_iff (items : List Value) (ss : List String) :
    items.mapM Value.text? = some ss ↔ items = ss.map .text := by
  induction items generalizing ss with
  | nil => cases ss <;> simp
  | cons v items ih =>
    rw [List.mapM_cons]
    simp only [Option.bind_eq_bind, Option.bind_eq_some_iff, text?_eq_some_iff, TextIs, ih]
    cases ss with
    | nil => simp
    | cons s ss => simp

theorem texts?_eq_some_iff (v : Value) (ss : List String) : v.texts? = some ss ↔ TextsAre v ss := by
  unfold TextsAre
  cases v with
  | array items extensible =>
    rw [Value.texts?, mapM_text?_eq_some_iff]
    simp
  | _ => simp [Value.texts?]

theorem limit_eq_some_iff (v : Value) (limit : Option String) :
    v.text?.map some = some limit ↔ LimitIs v limit := by
  unfold LimitIs
  rw [Option.map_eq_some_iff]
  simp only [text?_eq_some_iff, TextIs]
  exact exists_congr fun s => ⟨fun h => ⟨h.2.symm, h.1⟩, fun h => ⟨h.2, h.1.symm⟩⟩

theorem isEmpty_iff (v : Value) : v.isEmpty = true ↔ IsVoid v := by
  unfold IsVoid
  cases v with
  | table origin es => cases es <;> simp [Value.isEmpty]
  | array items extensible => cases items <;> simp [Value.isEmpty]
  | _ => simp [Value.isEmpty]

theorem ofKeyword?_eq_some_iff (k : String) (s : Severity) :
    Severity.ofKeyword? k = some s ↔ k = s.keyword := by
  constructor
  · intro h
    unfold Severity.ofKeyword? at h
    split at h <;> cases h <;> rfl
  · rintro rfl
    exact Severity.ofKeyword?_keyword s

theorem severity?_eq_some_iff (v : Value) (s : Severity) :
    severity? v = some s ↔ SeverityIs v s := by
  unfold SeverityIs
  cases v with
  | text t =>
    rw [severity?, ofKeyword?_eq_some_iff]
    simp
  | table origin es =>
    match es with
    | [] => simp [severity?]
    | [(k, w)] =>
      rw [severity?]
      constructor
      · intro h
        split at h
        · next hempty =>
          rw [← (ofKeyword?_eq_some_iff k s).1 h]
          exact .inr ⟨origin, w, rfl, (isEmpty_iff w).1 hempty⟩
        · cases h
      · rintro (htext | ⟨origin', w', htable, hvoid⟩)
        · cases htext
        · cases htable
          rw [if_pos ((isEmpty_iff w).2 hvoid)]
          exact Severity.ofKeyword?_keyword s
    | _ :: _ :: _ => simp [severity?]
  | _ => simp [severity?]

theorem at?_key (origin : Toml.Origin) (es : Entries) (k : String) :
    (Value.table origin es).at? [.key k] = es.lookup k := by
  rw [Value.at?]
  cases es.lookup k <;> rfl

theorem rule?_eq_some_iff (origin : Toml.Origin) (es : Entries) (r : Rule) :
    rule? (.table origin es) = some r ↔ RuleIs (.table origin es) r := by
  unfold rule?
  simp only [Value.fields?, Option.bind_eq_bind, Option.bind_some, Option.bind_eq_some_iff,
    required_eq_some_iff text?_eq_some_iff, required_eq_some_iff texts?_eq_some_iff,
    required_eq_some_iff severity?_eq_some_iff, Option.some.injEq, ← at?_key origin es]
  constructor
  · rintro ⟨label, hlabel, patterns, hpatterns, severity, hseverity, rfl⟩
    exact ⟨hlabel, hpatterns, hseverity⟩
  · rintro ⟨hlabel, hpatterns, hseverity⟩
    exact ⟨_, hlabel, _, hpatterns, _, hseverity, rfl⟩

theorem mapM_rule?_eq_some_iff {items : List Value}
    (h : ∀ v ∈ items, ∃ origin es, v = .table origin es) (rs : List Rule) :
    items.mapM rule? = some rs ↔ Forall₂ RuleIs items rs := by
  induction items generalizing rs with
  | nil =>
    rw [List.mapM_nil, List.forall₂_nil_left_iff]
    exact Option.some_inj.trans eq_comm
  | cons v items ih =>
    obtain ⟨⟨origin, es, rfl⟩, hitems⟩ := List.forall_mem_cons.1 h
    rw [List.mapM_cons, List.forall₂_cons_left_iff]
    simp only [Option.bind_eq_bind, Option.bind_eq_some_iff, rule?_eq_some_iff, ih hitems,
      Option.pure_def, Option.some.injEq]
    constructor
    · rintro ⟨r, hr, rs', hrs, rfl⟩
      exact ⟨r, rs', hr, hrs, rfl⟩
    · rintro ⟨r, rs', hr, hrs, rfl⟩
      exact ⟨r, hr, rs', hrs, rfl⟩

/-! ## Sections -/

/-- The table of a section; one that is missing has no fields. -/
def sectionOf (es : Entries) (name : String) : Entries :=
  match es.lookup name with
  | some (.table _ inner) => inner
  | _ => []

theorem lookup_sectionOf (es : Entries) (name k : String) :
    (sectionOf es name).lookup k = es.at? [.key name, .key k] := by
  unfold sectionOf Entries.at?
  rw [Value.at?]
  cases es.lookup name with
  | none => rfl
  | some v =>
    cases v with
    | table origin inner => exact (at?_key origin inner k).symm
    | _ => rfl

theorem seen_key (es : Entries) (name : String) :
    es.seen [.key name] = (es.lookup name).map Value.shape :=
  Value.seen_key_nil .header es name

theorem readSection_eq {α : Type} {es : Entries} {name : String}
    (h : ∀ s, es.seen [.key name] = some s → s = .table) (names : List String)
    (read : Entries → Option α) : readSection names read name es = read (sectionOf es name) := by
  rw [seen_key] at h
  unfold readSection sectionOf
  cases hlookup : es.lookup name with
  | none => rfl
  | some v =>
    have hshape := h v.shape (by rw [hlookup]; rfl)
    cases v with
    | table origin inner => rfl
    | _ => cases hshape

/-! ## The whole configuration -/

variable {es : Entries}

theorem project?_eq_some_iff (p : ProjectConfig) :
    project? es = some p ↔
      Takes (es.lookup "root") PathIs ({} : ProjectConfig).root p.root ∧
      Takes (es.lookup "extensions") TextsAre ({} : ProjectConfig).extensions p.extensions ∧
      Takes (es.lookup "exclude") TextsAre ({} : ProjectConfig).exclude p.exclude := by
  unfold project?
  simp only [Option.bind_eq_bind, Option.bind_eq_some_iff, field_eq_some_iff path?_eq_some_iff,
    field_eq_some_iff texts?_eq_some_iff, Option.some.injEq]
  constructor
  · rintro ⟨root, h₁, extensions, h₂, exclude, h₃, rfl⟩
    exact ⟨h₁, h₂, h₃⟩
  · rintro ⟨h₁, h₂, h₃⟩
    exact ⟨_, h₁, _, h₂, _, h₃, rfl⟩

theorem tests?_eq_some_iff (t : TestsConfig) :
    tests? es = some t ↔
      Takes (es.lookup "enabled") BooleanIs ({} : TestsConfig).enabled t.enabled ∧
      Takes (es.lookup "command") TextIs ({} : TestsConfig).command t.command ∧
      Takes (es.lookup "config") TextIs ({} : TestsConfig).config t.config ∧
      Takes (es.lookup "require_config") BooleanIs ({} : TestsConfig).requireConfig
        t.requireConfig ∧
      Takes (es.lookup "prompt") TextIs ({} : TestsConfig).prompt t.prompt ∧
      Takes (es.lookup "timeout") LimitIs ({} : TestsConfig).timeout t.timeout ∧
      Takes (es.lookup "failure_output_lines") NaturalIs ({} : TestsConfig).failureOutputLines
        t.failureOutputLines := by
  unfold tests?
  simp only [Option.bind_eq_bind, Option.bind_eq_some_iff, field_eq_some_iff text?_eq_some_iff,
    field_eq_some_iff boolean?_eq_some_iff, field_eq_some_iff limit_eq_some_iff,
    field_eq_some_iff natural?_eq_some_iff, Option.some.injEq]
  constructor
  · rintro ⟨enabled, h₁, command, h₂, config, h₃, require, h₄, prompt, h₅, timeout, h₆, lines, h₇,
      rfl⟩
    exact ⟨h₁, h₂, h₃, h₄, h₅, h₆, h₇⟩
  · rintro ⟨h₁, h₂, h₃, h₄, h₅, h₆, h₇⟩
    exact ⟨_, h₁, _, h₂, _, h₃, _, h₄, _, h₅, _, h₆, _, h₇, rfl⟩

theorem environment?_eq_some_iff (e : EnvironmentConfig) :
    environment? es = some e ↔
      Takes (es.lookup "check") BooleanIs ({} : EnvironmentConfig).check e.check ∧
      Takes (es.lookup "tool") TextIs ({} : EnvironmentConfig).tool e.tool ∧
      Takes (es.lookup "version_arg") TextIs ({} : EnvironmentConfig).versionArg e.versionArg ∧
      Takes (es.lookup "min_version") TextIs ({} : EnvironmentConfig).minVersion
        e.minVersion := by
  unfold environment?
  simp only [Option.bind_eq_bind, Option.bind_eq_some_iff, field_eq_some_iff text?_eq_some_iff,
    field_eq_some_iff boolean?_eq_some_iff, Option.some.injEq]
  constructor
  · rintro ⟨check, h₁, tool, h₂, arg, h₃, version, h₄, rfl⟩
    exact ⟨h₁, h₂, h₃, h₄⟩
  · rintro ⟨h₁, h₂, h₃, h₄⟩
    exact ⟨_, h₁, _, h₂, _, h₃, _, h₄, rfl⟩

theorem policy?_eq_some_iff (p : PolicyConfig) :
    policy? es = some p ↔
      Takes (es.lookup "block_on_error") BooleanIs ({} : PolicyConfig).blockOnError
        p.blockOnError := by
  unfold policy?
  simp only [Option.bind_eq_bind, Option.bind_eq_some_iff, field_eq_some_iff boolean?_eq_some_iff,
    Option.some.injEq]
  constructor
  · rintro ⟨block, h, rfl⟩
    exact h
  · exact fun h => ⟨_, h, rfl⟩

/-- In an array of tables the rules are read one by one. -/
theorem rules?_eq_some_iff (sectioned : Sectioned es) (rs : List Rule) :
    field rules? BuiltIn.php "rules" es = some rs ↔
      Takes (es.at? [.key "rules"]) RulesAre BuiltIn.php rs := by
  have hat : es.at? [.key "rules"] = es.lookup "rules" := at?_key .header es "rules"
  rw [hat]
  cases hlookup : es.lookup "rules" with
  | none => rw [field_of_lookup_eq_none hlookup, takes_none_iff, Option.some.injEq, eq_comm]
  | some v =>
    have hshape : v.shape = .array := by
      refine sectioned.rules v.shape ?_
      rw [seen_key, hlookup]
      rfl
    rw [field_of_lookup_eq_some hlookup, takes_some_iff]
    cases v with
    | array items extensible =>
      have htables : ∀ v ∈ items, ∃ origin inner, v = .table origin inner := by
        intro v hv
        obtain ⟨i, hi⟩ := List.mem_iff_getElem?.1 hv
        have htable : v.shape = .table := by
          refine sectioned.items i v.shape ?_
          unfold Entries.seen
          rw [Value.seen_key, hlookup, Option.bind_some, Value.seen_item, hi, Option.bind_some,
            Value.seen_nil]
        cases v with
        | table origin inner => exact ⟨origin, inner, rfl⟩
        | _ => cases htable
      refine (mapM_rule?_eq_some_iff htables rs).trans ?_
      constructor
      · exact fun h => ⟨items, extensible, rfl, h⟩
      · rintro ⟨items', extensible', heq, h⟩
        cases heq
        exact h
    | _ => cases hshape

/-- **The configuration that is read is the one that the document describes.** -/
theorem ofEntries?_eq_some_iff (sectioned : Sectioned es) (c : Config) :
    ofEntries? es = some c ↔ Describes es c := by
  have hsection (name : String) (hmem : name ∈ sections.map Prod.fst) {α : Type}
      (names : List String) (read : Entries → Option α) :
      readSection names read name es = read (sectionOf es name) := by
    obtain ⟨fields, hfields, rfl⟩ := List.mem_map.1 hmem
    exact readSection_eq (sectioned.tables fields hfields) names read
  have hproject := @hsection "project" (by decide)
  have htests := @hsection "tests" (by decide)
  have henvironment := @hsection "environment" (by decide)
  have hpolicy := @hsection "policy" (by decide)
  unfold ofEntries?
  simp only [Option.bind_eq_bind, Option.bind_eq_some_iff, Option.some.injEq, hproject, htests,
    henvironment, hpolicy, project?_eq_some_iff, tests?_eq_some_iff, environment?_eq_some_iff,
    policy?_eq_some_iff, rules?_eq_some_iff sectioned, lookup_sectionOf]
  constructor
  · rintro ⟨p, ⟨h₁, h₂, h₃⟩, t, ⟨h₄, h₅, h₆, h₇, h₈, h₉, h₁₀⟩, e, ⟨h₁₁, h₁₂, h₁₃, h₁₄⟩, q, h₁₅, rs,
      h₁₆, rfl⟩
    exact ⟨h₁, h₂, h₃, h₄, h₅, h₆, h₇, h₈, h₉, h₁₀, h₁₁, h₁₂, h₁₃, h₁₄, h₁₅, h₁₆⟩
  · intro h
    exact ⟨c.project, ⟨h.root, h.extensions, h.exclude⟩, c.tests,
      ⟨h.enabled, h.command, h.config, h.requireConfig, h.prompt, h.timeout, h.failureOutputLines⟩,
      c.environment, ⟨h.check, h.tool, h.versionArg, h.minVersion⟩, c.policy, h.blockOnError,
      c.rules, h.rules, rfl⟩

/-- **A document describes a configuration exactly when every field that is there has its type.** -/
theorem exists_describes_iff : (∃ c, Describes es c) ↔ Typed es := by
  constructor
  · rintro ⟨c, h⟩
    exact ⟨fun v hv => ⟨_, h.root.1 v hv⟩, fun v hv => ⟨_, h.extensions.1 v hv⟩,
      fun v hv => ⟨_, h.exclude.1 v hv⟩, fun v hv => ⟨_, h.enabled.1 v hv⟩,
      fun v hv => ⟨_, h.command.1 v hv⟩, fun v hv => ⟨_, h.config.1 v hv⟩,
      fun v hv => ⟨_, h.requireConfig.1 v hv⟩, fun v hv => ⟨_, h.prompt.1 v hv⟩,
      fun v hv => ⟨_, h.timeout.1 v hv⟩, fun v hv => ⟨_, h.failureOutputLines.1 v hv⟩,
      fun v hv => ⟨_, h.check.1 v hv⟩, fun v hv => ⟨_, h.tool.1 v hv⟩,
      fun v hv => ⟨_, h.versionArg.1 v hv⟩, fun v hv => ⟨_, h.minVersion.1 v hv⟩,
      fun v hv => ⟨_, h.blockOnError.1 v hv⟩, fun v hv => ⟨_, h.rules.1 v hv⟩⟩
  · intro h
    obtain ⟨root, h₁⟩ := exists_takes h.root ({} : ProjectConfig).root
    obtain ⟨extensions, h₂⟩ := exists_takes h.extensions ({} : ProjectConfig).extensions
    obtain ⟨exclude, h₃⟩ := exists_takes h.exclude ({} : ProjectConfig).exclude
    obtain ⟨enabled, h₄⟩ := exists_takes h.enabled ({} : TestsConfig).enabled
    obtain ⟨command, h₅⟩ := exists_takes h.command ({} : TestsConfig).command
    obtain ⟨config, h₆⟩ := exists_takes h.config ({} : TestsConfig).config
    obtain ⟨require, h₇⟩ := exists_takes h.requireConfig ({} : TestsConfig).requireConfig
    obtain ⟨prompt, h₈⟩ := exists_takes h.prompt ({} : TestsConfig).prompt
    obtain ⟨timeout, h₉⟩ := exists_takes h.timeout ({} : TestsConfig).timeout
    obtain ⟨lines, h₁₀⟩ := exists_takes h.failureOutputLines ({} : TestsConfig).failureOutputLines
    obtain ⟨check, h₁₁⟩ := exists_takes h.check ({} : EnvironmentConfig).check
    obtain ⟨tool, h₁₂⟩ := exists_takes h.tool ({} : EnvironmentConfig).tool
    obtain ⟨arg, h₁₃⟩ := exists_takes h.versionArg ({} : EnvironmentConfig).versionArg
    obtain ⟨version, h₁₄⟩ := exists_takes h.minVersion ({} : EnvironmentConfig).minVersion
    obtain ⟨block, h₁₅⟩ := exists_takes h.blockOnError ({} : PolicyConfig).blockOnError
    obtain ⟨rules, h₁₆⟩ := exists_takes h.rules BuiltIn.php
    exact ⟨⟨⟨root, extensions, exclude⟩,
      ⟨enabled, command, config, require, prompt, timeout, lines⟩, ⟨check, tool, arg, version⟩,
      ⟨block⟩, rules⟩,
      h₁, h₂, h₃, h₄, h₅, h₆, h₇, h₈, h₉, h₁₀, h₁₁, h₁₂, h₁₃, h₁₄, h₁₅, h₁₆⟩

end CommitGate.Config

import CommitGate.Config.Text
import CommitGate.Proofs.Toml.Document
import CommitGate.Proofs.Toml.Integers
import CommitGate.Proofs.Utf8

/-!
# Configurations are read back

A configuration is written in blocks, the blocks are read as statements, and these put a document
together whose sections hold the fields of the configuration.

Results:

* `parse?_write`: the document of a written configuration has all of its sections.
* `ofEntries?_document`: this document describes the configuration.
* `round_trip`: what is written for a valid configuration, or for one that was read, is read as the
  same one.
-/

namespace CommitGate.Config

open Toml (Block Document Entries Pair Plain Value pairEntries)

/-! ## The pairs -/

/-- Pairs that can be written as a block and read back. -/
structure Writable (ps : List Pair) : Prop where
  keys : ∀ k ∈ ps.map Prod.fst, Toml.IsKey k
  distinct : Document.Distinct ps
  fits : ∀ p ∈ ps, p.2.Fits

theorem Writable.good {ps : List Pair} (h : Writable ps) : ∀ p ∈ ps, Pair.Good p :=
  fun p hp => ⟨h.keys p.1 (List.mem_map_of_mem hp), h.fits p hp⟩

theorem writable_projectPairs (p : ProjectConfig) (root : String) :
    Writable (projectPairs p root) where
  keys := show ∀ k ∈ ["root", "extensions", "exclude"], Toml.IsKey k by decide +kernel
  distinct := show ["root", "extensions", "exclude"].Nodup by decide
  fits := by simp [projectPairs, Plain.Fits]

theorem writable_testsPairs {t : TestsConfig} (h : t.failureOutputLines < Toml.integerBound) :
    Writable (testsPairs t) := by
  cases ht : t.timeout with
  | none =>
    have hkeys : (testsPairs t).map Prod.fst =
        ["enabled", "command", "config", "require_config", "prompt", "failure_output_lines"] := by
      simp [testsPairs, ht]
    refine ⟨?_, ?_, ?_⟩
    · rw [hkeys]
      decide +kernel
    · rw [Document.Distinct, hkeys]
      decide
    · simp [testsPairs, ht, Plain.Fits, h]
  | some s =>
    have hkeys : (testsPairs t).map Prod.fst =
        ["enabled", "command", "config", "require_config", "prompt", "timeout",
          "failure_output_lines"] := by
      simp [testsPairs, ht]
    refine ⟨?_, ?_, ?_⟩
    · rw [hkeys]
      decide +kernel
    · rw [Document.Distinct, hkeys]
      decide
    · simp [testsPairs, ht, Plain.Fits, h]

theorem writable_environmentPairs (e : EnvironmentConfig) : Writable (environmentPairs e) where
  keys := show ∀ k ∈ ["check", "tool", "version_arg", "min_version"], Toml.IsKey k by decide +kernel
  distinct := show ["check", "tool", "version_arg", "min_version"].Nodup by decide
  fits := by simp [environmentPairs, Plain.Fits]

theorem writable_policyPairs (p : PolicyConfig) : Writable (policyPairs p) where
  keys := show ∀ k ∈ ["block_on_error"], Toml.IsKey k by decide +kernel
  distinct := show ["block_on_error"].Nodup by decide
  fits := by simp [policyPairs, Plain.Fits]

theorem writable_rulePairs (r : Rule) : Writable (rulePairs r) where
  keys := show ∀ k ∈ ["label", "patterns", "severity"], Toml.IsKey k by decide +kernel
  distinct := show ["label", "patterns", "severity"].Nodup by decide
  fits := by simp [rulePairs, Plain.Fits]

/-- The rules of a configuration without any. -/
def noRules : List Pair := [("rules", .texts [])]

theorem writable_noRules : Writable noRules where
  keys := show ∀ k ∈ ["rules"], Toml.IsKey k by decide +kernel
  distinct := show ["rules"].Nodup by decide
  fits := by simp [noRules, Plain.Fits]

/-! ## The blocks -/

/-- The sections that are tables, with their pairs. -/
def sectionPairs (c : Config) (root : String) : List (String × List Pair) := [
  ("project", projectPairs c.project root),
  ("tests", testsPairs c.tests),
  ("environment", environmentPairs c.environment),
  ("policy", policyPairs c.policy)]

theorem blocks_eq (c : Config) (root : String) :
    c.blocks root = (if c.rules = [] then [.pairs noRules] else []) ++
      (c.sectionPairs root).map (fun t => .table t.1 t.2) ++
      (c.rules.map rulePairs).map (.item "rules") := by
  rw [List.map_map]
  rfl

theorem isKey_sectionPairs (c : Config) (root : String) :
    ∀ t ∈ c.sectionPairs root, Toml.IsKey t.1 := by
  have hkeys : ∀ k ∈ ["project", "tests", "environment", "policy"], Toml.IsKey k := by
    decide +kernel
  exact fun t ht => hkeys t.1 (List.mem_map_of_mem ht)

theorem writable_sectionPairs {c : Config} (h : c.tests.failureOutputLines < Toml.integerBound)
    (root : String) : ∀ t ∈ c.sectionPairs root, Writable t.2 := by
  intro t ht
  simp only [sectionPairs, List.mem_cons, List.not_mem_nil, or_false] at ht
  rcases ht with rfl | rfl | rfl | rfl
  · exact writable_projectPairs c.project root
  · exact writable_testsPairs h
  · exact writable_environmentPairs c.environment
  · exact writable_policyPairs c.policy

theorem good_blocks {c : Config} (h : c.tests.failureOutputLines < Toml.integerBound)
    (root : String) : ∀ b ∈ c.blocks root, b.Good := by
  intro b hb
  rw [blocks_eq, List.mem_append, List.mem_append] at hb
  rcases hb with (hb | hb) | hb
  · split at hb
    · rw [List.mem_singleton] at hb
      rw [hb]
      exact writable_noRules.good
    · cases hb
  · obtain ⟨t, ht, rfl⟩ := List.mem_map.1 hb
    exact ⟨isKey_sectionPairs c root t ht, (writable_sectionPairs h root t ht).good⟩
  · obtain ⟨ps, hps, rfl⟩ := List.mem_map.1 hb
    obtain ⟨r, -, rfl⟩ := List.mem_map.1 hps
    exact ⟨by decide +kernel, (writable_rulePairs r).good⟩

/-! ## The document -/

/-- The document of a written configuration. -/
def document (c : Config) (root : String) : Entries :=
  if c.rules = [] then pairEntries noRules ++ Document.namedTables (c.sectionPairs root)
  else Document.namedTables (c.sectionPairs root) ++
    [("rules", .array (Document.itemTables (c.rules.map rulePairs)) true)]

theorem run_sectionPairs {c : Config} (h : c.tests.failureOutputLines < Toml.integerBound)
    (root : String) (front : Entries) (hfront : front = [] ∨ front = pairEntries noRules)
    (current : List String) :
    ∃ current', (⟨front, current⟩ : Document).run
        (((c.sectionPairs root).map fun t => Block.table t.1 t.2).flatMap Block.statements) =
      some ⟨front ++ Document.namedTables (c.sectionPairs root), current'⟩ := by
  refine Document.run_tables ?_ (fun t ht => (writable_sectionPairs h root t ht).distinct) current
  rcases hfront with rfl | rfl
  · show ["project", "tests", "environment", "policy"].Nodup
    decide
  · show ["rules", "project", "tests", "environment", "policy"].Nodup
    decide

theorem run_blocks {c : Config} (h : c.tests.failureOutputLines < Toml.integerBound)
    (root : String) :
    ∃ current, Document.empty.run ((c.blocks root).flatMap Block.statements) =
      some ⟨c.document root, current⟩ := by
  rw [blocks_eq, List.flatMap_append, List.flatMap_append, Document.run_append, Document.run_append]
  by_cases hrules : c.rules = []
  · obtain ⟨current, hrun⟩ := run_sectionPairs h root _ (.inr rfl) []
    refine ⟨current, ?_⟩
    rw [if_pos hrules, document, if_pos hrules, hrules, List.flatMap_singleton,
      Document.run_root writable_noRules.distinct, Option.bind_some, hrun]
    rfl
  · obtain ⟨current, hrun⟩ := run_sectionPairs h root [] (.inl rfl) []
    have hlookup : (Document.namedTables (c.sectionPairs root)).lookup "rules" = none :=
      Entries.lookup_eq_none
        (show "rules" ∉ ["project", "tests", "environment", "policy"] by decide)
    have hitems : ∀ ps ∈ c.rules.map rulePairs, Document.Distinct ps := by
      intro ps hps
      obtain ⟨r, -, rfl⟩ := List.mem_map.1 hps
      exact (writable_rulePairs r).distinct
    obtain ⟨current', hrun'⟩ := Document.run_items hlookup hitems (by simpa using hrules) current
    refine ⟨current', ?_⟩
    have hempty : Document.empty.run [] = some ⟨[], []⟩ := rfl
    rw [if_neg hrules, document, if_neg hrules, List.flatMap_nil, hempty, Option.bind_some, hrun,
      Option.bind_some]
    exact hrun'

/-- A written configuration starts with no byte order mark. -/
theorem head?_write (c : Config) (root : String) :
    (Toml.writeBlocks (c.blocks root)).head? ≠ some '\uFEFF' := by
  rw [blocks_eq]
  by_cases hrules : c.rules = []
  · have hwrite : (Block.pairs noRules).write = 'r' :: "ules = []\n".toList := by decide +kernel
    rw [if_pos hrules, List.singleton_append, List.cons_append, Toml.head?_writeBlocks hwrite]
    decide
  · have hwrite : (Block.table "project" (projectPairs c.project root)).write =
        '[' :: ("project".toList ++ [']', '\n'] ++
          (projectPairs c.project root).flatMap Toml.writePair) := rfl
    rw [if_neg hrules, List.nil_append, sectionPairs, List.map_cons, List.cons_append,
      Toml.head?_writeBlocks hwrite]
    decide

/-- **The document of a written configuration has all of its sections.** -/
theorem parse?_write {c : Config} (h : c.tests.failureOutputLines < Toml.integerBound)
    (root : String) :
    Toml.parse? (String.ofList (Toml.writeBlocks (c.blocks root))) = some (c.document root) := by
  have hsays := Toml.says_writeBlocks (good_blocks h root)
  have hstatements := Toml.readStatements_of_says hsays (head?_write c root)
  obtain ⟨current, hrun⟩ := run_blocks h root
  unfold Toml.parse?
  rw [String.toList_ofList, hstatements]
  simp [hrun]

/-! ## The fields -/

theorem texts?_texts (ss : List String) (extensible : Bool) :
    (Value.array (ss.map .text) extensible).texts? = some ss := by
  show (ss.map Value.text).mapM Value.text? = some ss
  induction ss with
  | nil => rfl
  | cons s ss ih => simp [Value.text?, ih]

theorem natural?_integer (n : Nat) : (Value.integer n).natural? = some n := by
  simp [Value.natural?]

theorem project?_pairEntries {p : ProjectConfig} {root : String} (hroot : p.root = ⟨root⟩) :
    project? (pairEntries (projectPairs p root)) = some p := by
  obtain ⟨_, extensions, exclude⟩ := p
  cases hroot
  simp [project?, field, pairEntries, projectPairs, Plain.value, List.lookup_cons, texts?_texts,
    Value.path?, Value.text?]

theorem tests?_pairEntries (t : TestsConfig) : tests? (pairEntries (testsPairs t)) = some t := by
  obtain ⟨enabled, command, config, requireConfig, prompt, timeout, lines⟩ := t
  cases timeout <;>
    simp [tests?, field, pairEntries, testsPairs, Plain.value, List.lookup_cons, Value.text?,
      Value.boolean?, natural?_integer]

theorem environment?_pairEntries (e : EnvironmentConfig) :
    environment? (pairEntries (environmentPairs e)) = some e := by
  simp [environment?, field, pairEntries, environmentPairs, Plain.value, List.lookup_cons,
    Value.text?, Value.boolean?]

theorem policy?_pairEntries (p : PolicyConfig) :
    policy? (pairEntries (policyPairs p)) = some p := by
  simp [policy?, field, pairEntries, policyPairs, Plain.value, Value.boolean?]

theorem rule?_pairEntries (r : Rule) :
    rule? (.table .header (pairEntries (rulePairs r))) = some r := by
  simp [rule?, Value.fields?, required, pairEntries, rulePairs, Plain.value, List.lookup_cons,
    Value.text?, texts?_texts, severity?, Severity.ofKeyword?_keyword]

theorem rules?_itemTables (rs : List Rule) (extensible : Bool) :
    rules? (.array (Document.itemTables (rs.map rulePairs)) extensible) = some rs := by
  show (Document.itemTables (rs.map rulePairs)).mapM rule? = some rs
  induction rs with
  | nil => rfl
  | cons r rs ih =>
    have hcons : Document.itemTables ((r :: rs).map rulePairs) =
        .table .header (pairEntries (rulePairs r)) :: Document.itemTables (rs.map rulePairs) := rfl
    rw [hcons, List.mapM_cons, rule?_pairEntries, ih]
    rfl

theorem readSection_of_lookup {α : Type} {names : List String} {read : Entries → Option α}
    {name : String} {es inner : Entries} (h : es.lookup name = some (.table .header inner)) :
    readSection names read name es = read inner := by
  simp [readSection, h, Value.fields?]

/-- **This document describes the configuration.** -/
theorem ofEntries?_document {c : Config} {root : String} (hroot : c.project.root = ⟨root⟩) :
    ofEntries? (c.document root) = some c := by
  have hproject : (c.document root).lookup "project" =
      some (.table .header (pairEntries (projectPairs c.project root))) := by
    unfold document
    split <;> rfl
  have htests : (c.document root).lookup "tests" =
      some (.table .header (pairEntries (testsPairs c.tests))) := by
    unfold document
    split <;> rfl
  have henvironment :
      (c.document root).lookup "environment" =
        some (.table .header (pairEntries (environmentPairs c.environment))) := by
    unfold document
    split <;> rfl
  have hpolicy : (c.document root).lookup "policy" =
      some (.table .header (pairEntries (policyPairs c.policy))) := by
    unfold document
    split <;> rfl
  have hrules : field rules? BuiltIn.php "rules" (c.document root) = some c.rules := by
    unfold document
    split
    · rename_i hnil
      rw [hnil]
      exact field_of_lookup_eq_some (v := .array [] false) rfl
    · rw [field_of_lookup_eq_some (v := .array (Document.itemTables (c.rules.map rulePairs)) true)
        rfl]
      exact rules?_itemTables c.rules true
  unfold ofEntries?
  rw [readSection_of_lookup hproject, readSection_of_lookup htests,
    readSection_of_lookup henvironment, readSection_of_lookup hpolicy, hrules,
    project?_pairEntries hroot,
    tests?_pairEntries, environment?_pairEntries, policy?_pairEntries]
  rfl

/-- **A valid configuration is read back from what is written for it.** -/
theorem read_write [Toml.Diagnosis] {c : Config} {root : String} (hroot : c.project.root = ⟨root⟩)
    (hvalid : c.validate = .ok ()) (hlines : c.tests.failureOutputLines < Toml.integerBound) :
    ∃ text, c.write = .ok text ∧ read text = .ok c := by
  refine ⟨String.ofList (Toml.writeBlocks (c.blocks root)), ?_, ?_⟩
  · rw [write, Path.text?_eq_some_iff.2 hroot]
    exact if_pos hlines
  unfold read
  rw [parse?_write hlines root, Option.bind_some, ofEntries?_document hroot]
  simp only [hvalid]
  rfl

/-! ## Configurations that were read -/

theorem fit_fields? {v : Value} (hv : v.Fits) {names : List String} {es : Entries}
    (h : v.fields? names = some es) :
    es.Fit := by
  cases hv with
  | table _ hes =>
    cases h
    exact hes
  | array _ hitems =>
    cases h
    exact fun e he => hitems e.2 (List.of_mem_zip he).2
  | moment =>
    cases h
    exact Entries.fit_nil
  | text => cases h
  | integer => cases h
  | float => cases h
  | boolean => cases h

theorem lt_of_natural? {v : Value} (hv : v.Fits) {n : Nat} (h : v.natural? = some n) :
    n < Toml.integerBound := by
  cases hv with
  | @integer m hm =>
    simp only [Value.natural?] at h
    split at h
    · cases h
      omega
    · cases h
  | text => cases h
  | float => cases h
  | boolean => cases h
  | moment => cases h
  | array => cases h
  | table => cases h

theorem lt_of_tests? {es : Entries} (hes : es.Fit) {t : TestsConfig} (h : tests? es = some t) :
    t.failureOutputLines < Toml.integerBound := by
  unfold tests? at h
  simp only [Option.bind_eq_bind, Option.bind_eq_some_iff, Option.some.injEq] at h
  obtain ⟨_, _, _, _, _, _, _, _, _, _, _, _, lines, hlines, rfl⟩ := h
  unfold field at hlines
  split at hlines
  · cases hlines
    exact show 0 < Toml.integerBound by decide +kernel
  · rename_i hlookup
    exact lt_of_natural? (hes.lookup hlookup) hlines

theorem lt_of_ofEntries? {es : Entries} (hes : es.Fit) {c : Config} (h : ofEntries? es = some c) :
    c.tests.failureOutputLines < Toml.integerBound := by
  unfold ofEntries? at h
  simp only [Option.bind_eq_bind, Option.bind_eq_some_iff, Option.some.injEq] at h
  obtain ⟨_, _, tests, htests, _, _, _, _, _, _, rfl⟩ := h
  unfold readSection at htests
  split at htests
  · exact lt_of_tests? Entries.fit_nil htests
  · rename_i hlookup
    obtain ⟨inner, hinner, htests⟩ := Option.bind_eq_some_iff.1 htests
    exact lt_of_tests? (fit_fields? (hes.lookup hlookup) hinner) htests

theorem exists_root_of_project? {es : Entries} {p : ProjectConfig} (h : project? es = some p) :
    ∃ root : String, p.root = ⟨root⟩ := by
  unfold project? at h
  simp only [Option.bind_eq_bind, Option.bind_eq_some_iff, Option.some.injEq] at h
  obtain ⟨root, hroot, _, _, _, _, rfl⟩ := h
  unfold field at hroot
  split at hroot
  · cases hroot
    exact ⟨".", rfl⟩
  · obtain ⟨s, -, rfl⟩ := Option.map_eq_some_iff.1 hroot
    exact ⟨s, rfl⟩

theorem exists_root_of_ofEntries? {es : Entries} {c : Config} (h : ofEntries? es = some c) :
    ∃ root : String, c.project.root = ⟨root⟩ := by
  unfold ofEntries? at h
  simp only [Option.bind_eq_bind, Option.bind_eq_some_iff, Option.some.injEq] at h
  obtain ⟨project, hproject, _, _, _, _, _, _, _, _, rfl⟩ := h
  unfold readSection at hproject
  split at hproject
  · exact exists_root_of_project? hproject
  · obtain ⟨inner, -, hproject⟩ := Option.bind_eq_some_iff.1 hproject
    exact exists_root_of_project? hproject

/-- A configuration that was read is valid, and it can be written: its root is a text, and its
numbers are small enough. -/
theorem of_read_eq_ok [Toml.Diagnosis] {text : String} {c : Config} (h : read text = .ok c) :
    c.validate = .ok () ∧ c.tests.failureOutputLines < Toml.integerBound ∧
      ∃ root : String, c.project.root = ⟨root⟩ := by
  unfold read at h
  split at h
  · cases h
  · rename_i c' hparse
    obtain ⟨es, hes, hc⟩ := Option.bind_eq_some_iff.1 hparse
    cases hvalid : c'.validate with
    | error e =>
      rw [hvalid] at h
      cases h
    | ok u =>
      rw [hvalid] at h
      cases h
      exact ⟨hvalid, lt_of_ofEntries? (Toml.fit_parse? hes) hc, exists_root_of_ofEntries? hc⟩

/-- A configuration whose rule has quotes, a backslash, a newline and a control character in its
patterns. -/
def oddConfig : Config :=
  { tests := { timeout := some "90s", failureOutputLines := 20 }
    rules := [⟨"odd", ["a\"\"\"b", "'''\\\n", "\x01", "tab\t"], .error⟩] }

attribute [local instance] Toml.Diagnosis.silent

end CommitGate.Config

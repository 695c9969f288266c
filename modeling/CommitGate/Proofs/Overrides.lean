import CommitGate.Proofs.Agreement
import CommitGate.Proofs.Toml.CommentFree
import CommitGate.Proofs.Toml.Spelling

/-!
# A configuration file overrides exactly what it says

What a configuration looks at is what the document says at the addresses of its fields. Keys below
one header and tables with their keys may come in any order, a header may be spelled with points,
and keys without a meaning may stand anywhere: the document says the same at these addresses. And
it says the same without comments.

Results:

* `said_known_iff`: keys without a meaning change nothing where a configuration looks.
* `said_of_respelled`: no other spelling does.
* `read_overrides`: a file is read exactly when the fields that it has are of their types, and then
  as the configuration that it describes, however it is spelled.
-/

namespace CommitGate.Config

open Toml (Address Asserts Closed Context Edge Entries Said Shape Statement Value dotted)
open Toml.Context (Headed block itemBlock keyed start)

/-! ## Keys without a meaning -/

/-- The address goes through a field that a table with these fields does not have. -/
def strange (fields : List String) : Address → Bool
  | .key k :: _ => k ∉ fields
  | _ => false

/-- The address goes through a field that a rule does not have. -/
def strangeInRule : Address → Bool
  | .item _ :: f => strange ruleFields f
  | _ => false

/-- No configuration looks at the address or below it: its first name is unknown, or it goes through
an unknown field of a section or a rule. -/
def ignored : Address → Bool
  | .key s :: f =>
    if s = "rules" then strangeInRule f else (sections.lookup s).elim true (strange · f)
  | _ => false

theorem ignored_rules (f : Address) : ignored (.key "rules" :: f) = strangeInRule f := rfl

theorem ignored_section {s : String} (hs : s ≠ "rules") (f : Address) :
    ignored (.key s :: f) = (sections.lookup s).elim true (strange · f) :=
  if_neg hs

theorem closed_strange (fields : List String) : Closed (strange fields) where
  below a b h := by
    match a with
    | [] => cases h
    | .key k :: f => exact h
    | .item i :: f => cases h
  array a i ha h := by
    match a with
    | [] => exact absurd rfl ha
    | .key k :: f => exact h
    | .item j :: f => cases h

theorem closed_strangeInRule : Closed strangeInRule where
  below a b h := by
    match a with
    | [] => cases h
    | .key k :: f => cases h
    | .item i :: f => exact (closed_strange ruleFields).below f b h
  array a i ha h := by
    match a with
    | [] => exact absurd rfl ha
    | .key k :: f => cases h
    | [.item j] => cases h
    | .item j :: e :: f => exact (closed_strange ruleFields).array (e :: f) i (by simp) h

theorem closed_ignored : Closed ignored where
  below a b h := by
    match a with
    | [] => cases h
    | .item i :: f => cases h
    | .key s :: f =>
      rw [List.cons_append]
      by_cases hs : s = "rules"
      · subst hs
        rw [ignored_rules] at h ⊢
        exact closed_strangeInRule.below f b h
      · rw [ignored_section hs] at h ⊢
        cases hfields : sections.lookup s with
        | none => rfl
        | some fields =>
          rw [hfields] at h
          exact (closed_strange fields).below f b h
  array a i ha h := by
    match a with
    | [] => exact absurd rfl ha
    | .item j :: f => cases h
    | .key s :: f =>
      rw [List.cons_append] at h
      by_cases hs : s = "rules"
      · subst hs
        rw [ignored_rules] at h ⊢
        match f with
        | [] => cases h
        | e :: f => exact closed_strangeInRule.array (e :: f) i (List.cons_ne_nil _ _) h
      · rw [ignored_section hs] at h ⊢
        cases hfields : sections.lookup s with
        | none => rfl
        | some fields =>
          rw [hfields] at h
          match f with
          | [] => cases h
          | e :: f => exact (closed_strange fields).array (e :: f) i (List.cons_ne_nil _ _) h

/-- The statements without keys that have no meaning. -/
def known (sts : List Statement) : List Statement :=
  start.leaveOut ignored sts

theorem lookup_sections : ∀ names ∈ sections, sections.lookup names.1 = some names.2 := by decide

/-- What is ignored gives nothing to see where a configuration looks, except the item that an
unknown field of a rule stands in. -/
theorem puts_of_ignored {v : Value} {f a : Address} {s : Shape} (hf : ignored f = true)
    (ha : Recognised a) (h : Entries.Puts v f a s) :
    ∃ i k g, f = .key "rules" :: .item i :: .key k :: g ∧
      Entries.Puts (.table .header []) [.key "rules", .item i] a s := by
  match f, a with
  | [], _ => cases hf
  | .item j :: f, _ => cases hf
  | .key x :: f, [] => exact ha.elim
  | .key x :: f, e :: a =>
    obtain ⟨rfl, h⟩ := h
    by_cases hx : x = "rules"
    · subst hx
      rw [ignored_rules] at hf
      match f with
      | [] => cases hf
      | .key k :: g => cases hf
      | [.item i] => cases hf
      | .item i :: .item j :: g => cases hf
      | .item i :: .key k :: g =>
        refine ⟨i, k, g, rfl, rfl, ?_⟩
        match a with
        | [] => exact h
        | e :: a =>
          obtain ⟨rfl, h⟩ := h
          match a with
          | [] =>
            refine ⟨rfl, ?_⟩
            rw [show s = .table from h]
            rfl
          | e :: a =>
            obtain ⟨rfl, -⟩ := h
            exact absurd ha.2 (of_decide_eq_true hf)
    · rw [ignored_section hx] at hf
      match a with
      | [] => exact absurd ha hx
      | [.item i] => exact absurd ha hx
      | .item i :: .key k :: a => exact absurd ha.1 hx
      | .item i :: .item j :: a => exact ha.elim
      | .key k :: a =>
        obtain ⟨names, hnames, rfl, hk⟩ := ha
        rw [lookup_sections names hnames] at hf
        match f with
        | [] => cases hf
        | .item j :: g => cases hf
        | .key k' :: g =>
          obtain ⟨heq, -⟩ := h
          cases heq
          exact absurd hk (of_decide_eq_true hf)

/-- **Keys without a meaning change nothing where a configuration looks.** -/
theorem said_known_iff {sts : List Statement} (hpath : ∀ st ∈ sts, st.path ≠ []) {a : Address}
    (ha : Recognised a) (s : Shape) :
    Said (start.tell (known sts)) a s ↔ Said (start.tell sts) a s := by
  have htold : start.tell (known sts) = (start.tell sts).filter fun p => !ignored p.1 :=
    Context.tell_leaveOut closed_ignored hpath ⟨fun _ _ => rfl, .inl rfl⟩
  rw [htold]
  unfold Said
  refine or_congr_right ⟨?_, ?_⟩
  · rintro ⟨p, hp, hputs⟩
    exact ⟨p, (List.mem_filter.1 hp).1, hputs⟩
  · rintro ⟨p, hp, hputs⟩
    cases hignored : ignored p.1 with
    | false => exact ⟨p, List.mem_filter.2 ⟨hp, by rw [hignored]; rfl⟩, hputs⟩
    | true =>
      obtain ⟨i, k, g, hrule, hheader⟩ := puts_of_ignored hignored ha hputs
      have htold : ([.key "rules", .item i], .table .header []) ∈ start.tell sts :=
        Context.mem_tell_header hpath hp (b := [.key "rules"]) hrule (List.cons_ne_nil _ _)
      exact ⟨_, List.mem_filter.2 ⟨htold, rfl⟩, hheader⟩

/-! ## Other spellings -/

/-- The statements of the same file, spelled otherwise. -/
inductive Respelled : List Statement → List Statement → Prop where
  /-- The keys below one header in another order. -/
  | keys (before : List Statement) {ps ps' : List (List String × Value)} (h : ps.Perm ps')
      (rest : List Statement) :
      Respelled (before ++ (ps.map keyed ++ rest)) (before ++ (ps'.map keyed ++ rest))
  /-- Tables with their keys in another order. -/
  | tables (before : List Statement) {ts ts' : List (List String × List (List String × Value))}
      (h : ts.Perm ts') {rest : List Statement} (hrest : Headed rest) :
      Respelled (before ++ (ts.flatMap block ++ rest)) (before ++ (ts'.flatMap block ++ rest))
  /-- A table behind or before an item of an array with another name. -/
  | across (before : List Statement) {k k' : String} (hk : k ≠ k') (path path' : List String)
      (ps ps' : List (List String × Value)) {rest : List Statement} (hrest : Headed rest) :
      Respelled (before ++ (itemBlock (k :: path, ps) ++ (block (k' :: path', ps') ++ rest)))
        (before ++ (block (k' :: path', ps') ++ (itemBlock (k :: path, ps) ++ rest)))
  /-- A header, which is not the name of an array of tables, as points in front of its keys. -/
  | points (before : List Statement) {path : List String} {ps : List (List String × Value)}
      (hpath : path ≠ []) (hps : ps ≠ []) (hkeys : ∀ p ∈ ps, p.1 ≠ []) {c : Context}
      (hc : before.foldl Context.after start = c)
      (htable : c.opened.count (c.address (.table (c.current ++ path))) = 0)
      {rest : List Statement} (hrest : Headed rest) :
      Respelled (before ++ (block (c.current ++ path, ps) ++ rest))
        (before ++ ((dotted path ps).map keyed ++ rest))
  /-- A value that looks the same where a configuration looks, such as an inline table with its
  names in another order or with further names. -/
  | value (before : List Statement) (path : List String) {v v' : Value}
      (h : ∀ b, Recognised ((before.foldl Context.after start).address (.pair path v) ++ b) →
        v.seen b = v'.seen b) (rest : List Statement) :
      Respelled (before ++ .pair path v :: rest) (before ++ .pair path v' :: rest)
  /-- Without the keys that have no meaning. -/
  | unknown {sts : List Statement} (hpath : ∀ st ∈ sts, st.path ≠ []) : Respelled sts (known sts)
  | symm {sts sts' : List Statement} (h : Respelled sts sts') : Respelled sts' sts
  | trans {sts sts' sts'' : List Statement} (h : Respelled sts sts') (h' : Respelled sts' sts'') :
      Respelled sts sts''

theorem said_of_perm (before : List Statement) {sts sts' : List Statement}
    (h : ∀ c : Context, (c.tell sts).Perm (c.tell sts')) (a : Address) (s : Shape) :
    Said (start.tell (before ++ sts)) a s ↔ Said (start.tell (before ++ sts')) a s := by
  rw [Context.tell_append, Context.tell_append]
  exact Said.congr (fun p => ((h _).append_left _).mem_iff) a s

theorem said_of_value (before : List Statement) (path : List String) {v v' : Value} {a : Address}
    (ha : Recognised a)
    (h : ∀ b, Recognised ((before.foldl Context.after start).address (.pair path v) ++ b) →
      v.seen b = v'.seen b) (rest : List Statement) (s : Shape) :
    Said (start.tell (before ++ .pair path v :: rest)) a s ↔
      Said (start.tell (before ++ .pair path v' :: rest)) a s := by
  rw [Context.tell_append, Context.tell_append, Toml.said_append, Toml.said_append]
  refine or_congr_right (or_congr_right ?_)
  rw [Context.tell, Context.tell]
  simp only [List.mem_cons, exists_eq_or_imp]
  refine or_congr (Entries.puts_congr fun b hb => h b ?_) Iff.rfl
  rw [← hb]
  exact ha

/-- **Another spelling says the same where a configuration looks.** -/
theorem said_of_respelled {sts sts' : List Statement} (h : Respelled sts sts') {a : Address}
    (ha : Recognised a) (s : Shape) :
    Said (start.tell sts) a s ↔ Said (start.tell sts') a s := by
  induction h with
  | keys before h rest =>
    exact said_of_perm before (fun c => c.tell_perm_of_pairs h rest) a s
  | tables before h hrest =>
    exact said_of_perm before (fun c => c.tell_perm_of_tables h hrest) a s
  | across before hk path path' ps ps' hrest =>
    exact said_of_perm before (fun c => c.tell_perm_of_item hk path path' ps ps' hrest) a s
  | @points before _ _ hpath hps hkeys c hc htable _ hrest =>
    subst hc
    rw [Context.tell_append, Context.tell_append, Context.tell_append, Context.tell_append,
      Context.foldl_after_block, Context.foldl_after_pairs, Toml.said_append, Toml.said_append,
      Toml.said_append, Toml.said_append, Toml.said_dotted_iff hpath htable hps hkeys,
      Context.tell_of_header hrest _ _ (before.foldl Context.after start).current]
  | value before path h rest => exact said_of_value before path ha h rest s
  | unknown hpath => exact (said_known_iff hpath ha s).symm
  | symm h ih => exact ih.symm
  | trans h h' ih ih' => exact ih.trans ih'

/-! ## What is read -/

variable {text text' : String} {es es' : Entries}

section Reading

variable [Toml.Diagnosis]

theorem read_of_respelled (parsed : Toml.parse? text = some es) (sectioned : Sectioned es)
    (parsed' : Toml.parse? text' = some es') (sectioned' : Sectioned es')
    {sts sts' : List Statement} (hsts : Toml.readStatements text.toList = some sts)
    (hsts' : Toml.readStatements text'.toList = some sts') (h : Respelled sts sts') :
    outcome (read text') = outcome (read text) := by
  refine read_congr parsed sectioned parsed' sectioned' fun a ha s => ?_
  constructor
  · rintro ⟨told, htold, hsaid⟩
    cases hsts'.symm.trans htold
    exact ⟨sts, hsts, (said_of_respelled h ha s).2 hsaid⟩
  · rintro ⟨told, htold, hsaid⟩
    cases hsts.symm.trans htold
    exact ⟨sts', hsts', (said_of_respelled h ha s).1 hsaid⟩

/-- A file is read as the same configuration without its comments. -/
theorem read_withoutComments (parsed : Toml.parse? text = some es) :
    outcome (read (String.ofList (Toml.withoutComments text.toList))) = outcome (read text) :=
  outcome_read_congr parsed (Toml.parse?_withoutComments parsed) rfl

/-- **A configuration file overrides exactly what it says.** What is read is the configuration that
the document describes, when it is valid: each field as the document has it, and its default where
the document does not have it. A file is read exactly when the fields that it has are of their
types, every rule has its three fields, and the result is valid. Another text that says the same at
the addresses of the fields is read as the same, whatever else it says: the order of keys and
tables, points instead of headers, keys without a meaning and comments count for nothing. Where it
fails it fails alike, but for the place that the parser names. -/
theorem read_overrides (parsed : Toml.parse? text = some es) (sectioned : Sectioned es) :
    (∀ c, read text = .ok c ↔ Describes es c ∧ c.validate = .ok ()) ∧
      ((∃ c, read text = .ok c) ↔ Typed es ∧ ∀ c, Describes es c → c.validate = .ok ()) ∧
      (∀ text' es', Toml.parse? text' = some es' → Sectioned es' →
        (∀ a, Recognised a → ∀ s, Asserts text' a s ↔ Asserts text a s) →
          outcome (read text') = outcome (read text)) ∧
      (∀ text' es' sts sts', Toml.parse? text' = some es' → Sectioned es' →
        Toml.readStatements text.toList = some sts → Toml.readStatements text'.toList = some sts' →
          Respelled sts sts' → outcome (read text') = outcome (read text)) ∧
      (∀ text' es', Toml.parse? text' = some es' →
        Toml.withoutComments text'.toList = Toml.withoutComments text.toList →
          outcome (read text') = outcome (read text)) ∧
      outcome (read (String.ofList (Toml.withoutComments text.toList))) =
        outcome (read text) := by
  have hread (c : Config) : read text = .ok c ↔ Describes es c ∧ c.validate = .ok () :=
    read_eq_ok_iff parsed sectioned c
  refine ⟨hread, ?_, ?_, ?_, ?_, read_withoutComments parsed⟩
  · constructor
    · rintro ⟨c, hc⟩
      obtain ⟨hdescribes, hvalid⟩ := (hread c).1 hc
      refine ⟨exists_describes_iff.1 ⟨c, hdescribes⟩, fun c' hc' => ?_⟩
      have hsame : some c = some c' := by
        rw [← (ofEntries?_eq_some_iff sectioned c).2 hdescribes,
          (ofEntries?_eq_some_iff sectioned c').2 hc']
      cases hsame
      exact hvalid
    · rintro ⟨htyped, hvalid⟩
      obtain ⟨c, hc⟩ := exists_describes_iff.2 htyped
      exact ⟨c, (hread c).2 ⟨hc, hvalid c hc⟩⟩
  · intro text' es' parsed' sectioned' same
    exact read_congr parsed sectioned parsed' sectioned' same
  · intro text' es' sts sts' parsed' sectioned' hsts hsts' h
    exact read_of_respelled parsed sectioned parsed' sectioned' hsts hsts' h
  · intro text' es' parsed' same
    rw [← read_withoutComments parsed', same, read_withoutComments parsed]

end Reading

/-- A file with comments and a key without a meaning. -/
def chattyFile : String :=
  "# Tests\n[tests]\nenabled = false # slow\ncolour = \"red\"\ncommand = \"make\"\n"

/-- The same configuration, with points and in another order. -/
def pointedFile : String :=
  "tests.command = \"make\"\ntests.enabled = false\n"

theorem sectioned_tests (origin : Toml.Origin) (es : Entries) :
    Sectioned [("tests", .table origin es)] where
  tables names _ s hs := by
    rw [seen_key, Entries.lookup_cons_eq] at hs
    split at hs
    · exact (Option.some.inj hs).symm
    · cases hs
  rules s hs := by cases hs
  items i s hs := by cases hs

theorem respelled_chattyFile :
    Respelled [.table ["tests"], .pair ["enabled"] (.boolean false),
        .pair ["colour"] (.text "red"), .pair ["command"] (.text "make")]
      [.pair ["tests", "command"] (.text "make"), .pair ["tests", "enabled"] (.boolean false)] := by
  let fields : List (List String × Value) :=
    [(["enabled"], .boolean false), (["command"], .text "make")]
  have hpoints : Respelled (block (["tests"], fields)) ((dotted ["tests"] fields).map keyed) := by
    have hrest : Headed [] := fun _ _ _ h => by cases h
    have hkeys : ∀ p ∈ fields, p.1 ≠ [] := by simp [fields]
    exact .points [] (by decide) (List.cons_ne_nil _ _) hkeys rfl rfl hrest
  have horder : Respelled ((dotted ["tests"] fields).map keyed) _ := .keys [] (.swap _ _ []) []
  exact (Respelled.unknown (by simp [Statement.path])).trans (hpoints.trans horder)

attribute [local instance] Toml.Diagnosis.silent

theorem read_overrides_pointedFile :
    (∃ c, read chattyFile = .ok c ∧
      Describes [("tests", .table .header [("enabled", .boolean false), ("colour", .text "red"),
        ("command", .text "make")])] c ∧
      c.tests.command = "make" ∧ c.tests.enabled = false ∧ c.rules = BuiltIn.php) ∧
      outcome (read pointedFile) = outcome (read chattyFile) ∧
      outcome (read (String.ofList (Toml.withoutComments chattyFile.toList))) =
        outcome (read chattyFile) := by
  obtain ⟨hread, -, -, hspelling, -, hcomments⟩ :=
    read_overrides (show Toml.parse? chattyFile = some _ from rfl) (sectioned_tests .header _)
  refine ⟨⟨_, rfl, ((hread _).1 rfl).1, rfl, rfl, rfl⟩, ?_, hcomments⟩
  exact hspelling pointedFile _ _ _ rfl (sectioned_tests .dotted _) rfl rfl respelled_chattyFile

end CommitGate.Config

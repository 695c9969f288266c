import CommitGate.Proofs.Fields
import CommitGate.Proofs.Toml.Meaning

/-!
# Documents that agree where a configuration looks

A configuration looks at certain addresses of a document only, and there at what can be seen: its
fields do not depend on the order of the names of a table, on the way in which a table was written,
or on anything that stands elsewhere. So two texts that say the same at these addresses are read as
the same configuration, or fail with the same failure.

Results:

* `describes_congr`: a configuration depends on what can be seen at the addresses that it looks at.
* `read_eq_ok_iff`: what is read is the configuration that the document describes, when it is valid.
* `read_congr`: texts that say the same at these addresses are read as the same.
-/

namespace CommitGate.Config

open List (Forall₂)
open Toml (Address Context Edge Entries Said Asserts Shape Statement Value)

/-! ## The addresses of a configuration -/

/-- The fields of a rule. -/
def ruleFields : List String := ["label", "patterns", "severity"]

/-- The addresses that a configuration looks at: its fields and what stands below them, and the
rules. -/
def Recognised : Address → Prop
  | .key s :: .key k :: _ => ∃ names ∈ sections, names.1 = s ∧ k ∈ names.2
  | [.key s] => s = "rules"
  | [.key s, .item _] => s = "rules"
  | .key s :: .item _ :: .key k :: _ => s = "rules" ∧ k ∈ ruleFields
  | _ => False

/-- The same can be seen wherever a configuration looks. -/
def Agree (es es' : Entries) : Prop :=
  ∀ a, Recognised a → es.seen a = es'.seen a

/-! ## What a value means can be seen -/

/-- What a value means depends on what can be seen of it. -/
def Visible {α : Type} (means : Value → α → Prop) : Prop :=
  ∀ v v' a, v'.Tidy → (∀ b, v.seen b = v'.seen b) → means v a → means v' a

theorem eq_of_shape {v w : Value} (h : v.shape = .leaf w) : v = w := by
  cases v <;> cases h <;> rfl

theorem shape_eq {v v' : Value} (h : ∀ b, v.seen b = v'.seen b) : v'.shape = v.shape := by
  have hroot := h []
  rw [Value.seen_nil, Value.seen_nil] at hroot
  exact (Option.some.inj hroot).symm

theorem exists_table {v : Value} (h : v.shape = .table) : ∃ origin es, v = .table origin es := by
  cases v with
  | table origin es => exact ⟨origin, es, rfl⟩
  | _ => cases h

theorem exists_array {v : Value} (h : v.shape = .array) :
    ∃ items extensible, v = .array items extensible := by
  cases v with
  | array items extensible => exact ⟨items, extensible, rfl⟩
  | _ => cases h

theorem visible_leaf {α : Type} {f : α → Value} (hf : ∀ a, (f a).shape = .leaf (f a)) :
    Visible fun v a => v = f a := by
  rintro v v' a - h rfl
  exact eq_of_shape ((shape_eq h).trans (hf a))

theorem visible_text : Visible TextIs := visible_leaf fun _ => rfl

theorem visible_path : Visible PathIs := by
  rintro v v' p htidy h ⟨s, hv, hp⟩
  exact ⟨s, visible_text v v' s htidy h hv, hp⟩

theorem visible_boolean : Visible BooleanIs := visible_leaf fun _ => rfl

theorem visible_natural : Visible NaturalIs := visible_leaf fun _ => rfl

theorem visible_limit : Visible LimitIs := by
  rintro v v' limit htidy h ⟨s, hs, hv⟩
  exact ⟨s, hs, visible_text v v' s htidy h hv⟩

theorem visible_texts : Visible TextsAre := by
  rintro v v' ss - h ⟨extensible, rfl⟩
  obtain ⟨items, extensible', rfl⟩ := exists_array (shape_eq h)
  refine ⟨extensible', congrArg (Value.array · extensible') (List.ext_getElem? fun i => ?_)⟩
  have hi := h [.item i]
  rw [Value.seen_item_nil, Value.seen_item_nil, List.getElem?_map] at hi
  rw [List.getElem?_map]
  cases hs : ss[i]? with
  | none =>
    rw [hs] at hi
    exact Option.map_eq_none_iff.1 hi.symm
  | some s =>
    rw [hs] at hi
    obtain ⟨w, hw, hshape⟩ := Option.map_eq_some_iff.1 hi.symm
    rw [hw, eq_of_shape hshape]
    rfl

theorem isVoid_of_seen {v v' : Value} (h : ∀ b, v.seen b = v'.seen b) (hv : IsVoid v) :
    IsVoid v' := by
  rcases hv with ⟨origin, rfl⟩ | ⟨extensible, rfl⟩
  · obtain ⟨origin', es, rfl⟩ := exists_table (shape_eq h)
    cases es with
    | nil => exact .inl ⟨origin', rfl⟩
    | cons e es =>
      have hkey := h [.key e.1]
      rw [Value.seen_key_nil, Value.seen_key_nil, Entries.lookup_cons_eq, if_pos rfl] at hkey
      cases hkey
  · obtain ⟨items, extensible', rfl⟩ := exists_array (shape_eq h)
    cases items with
    | nil => exact .inr ⟨extensible', rfl⟩
    | cons w items =>
      have hitem := h [.item 0]
      rw [Value.seen_item_nil, Value.seen_item_nil] at hitem
      cases hitem

/-- A table of which one name can be seen, and no other, has one entry. -/
theorem eq_singleton_of_lookup {es : Entries} {k : String} {w : Value}
    (hnodup : (es.map Prod.fst).Nodup) (hk : es.lookup k = some w)
    (hother : ∀ x, x ≠ k → es.lookup x = none) : es = [(k, w)] := by
  match es with
  | [] => cases hk
  | (k₁, w₁) :: es =>
    have hfirst : k₁ = k := by
      by_contra hne
      have hnone := hother k₁ hne
      rw [Entries.lookup_cons_eq, if_pos rfl] at hnone
      cases hnone
    subst hfirst
    rw [Entries.lookup_cons_eq, if_pos rfl] at hk
    cases hk
    match es with
    | [] => rfl
    | (k₂, w₂) :: es =>
      have hne : k₂ ≠ k₁ := by
        rintro rfl
        simp at hnodup
      have hnone := hother k₂ hne
      rw [Entries.lookup_cons_eq, if_neg hne, Entries.lookup_cons_eq, if_pos rfl] at hnone
      cases hnone

theorem visible_severity : Visible SeverityIs := by
  rintro v v' s htidy h (htext | ⟨origin, w, rfl, hvoid⟩)
  · exact .inl (visible_leaf (f := fun s : Severity => .text s.keyword) (fun _ => rfl) v v' s htidy
      h htext)
  · obtain ⟨origin', es, rfl⟩ := exists_table (shape_eq h)
    have hlookup (x : String) (b : Address) :
        (es.lookup x).bind (·.seen b) = (List.lookup x [(s.keyword, w)]).bind (·.seen b) := by
      rw [← Value.seen_key origin', ← Value.seen_key origin]
      exact (h (.key x :: b)).symm
    have hone (x : String) :
        List.lookup x [(s.keyword, w)] = if x = s.keyword then some w else none :=
      Entries.lookup_cons_eq (s.keyword, w) [] x
    have hother : ∀ x, x ≠ s.keyword → es.lookup x = none := by
      intro x hx
      have hnone := hlookup x []
      rw [hone, if_neg hx] at hnone
      cases hes : es.lookup x with
      | none => rfl
      | some u =>
        rw [hes, Option.bind_some, Value.seen_nil] at hnone
        cases hnone
    have hsame := hlookup s.keyword
    rw [hone, if_pos rfl] at hsame
    cases hes : es.lookup s.keyword with
    | none =>
      have hnone := hsame []
      rw [hes, Option.bind_some, Value.seen_nil] at hnone
      cases hnone
    | some w' =>
      have heq := eq_singleton_of_lookup (Value.tidy_table_iff.1 htidy).1 hes hother
      refine .inr ⟨origin', w', by rw [heq], isVoid_of_seen (fun b => ?_) hvoid⟩
      have hb := hsame b
      rw [hes, Option.bind_some, Option.bind_some] at hb
      exact hb.symm

/-! ## Fields of documents that agree -/

section Addresses

variable {α : Type} {v v' : Value} {a : Address} {means : Value → α → Prop} {fallback x : α}

theorem tidy_at? (hv : v.Tidy) {w : Value} (h : v.at? a = some w) : w.Tidy := by
  intro b origin es hb
  refine hv (a ++ b) origin es ?_
  rw [Value.at?_append, h, Option.bind_some, hb]

/-- What stands at an address of two values that look the same there. -/
theorem at?_of_seen (h : ∀ b, v.seen (a ++ b) = v'.seen (a ++ b)) :
    v.at? a = none ∧ v'.at? a = none ∨
      ∃ w w', v.at? a = some w ∧ v'.at? a = some w' ∧ ∀ b, w.seen b = w'.seen b := by
  have hroot := h []
  rw [List.append_nil] at hroot
  unfold Value.seen at hroot
  cases hw : v.at? a with
  | none =>
    rw [hw] at hroot
    exact .inl ⟨rfl, Option.map_eq_none_iff.1 hroot.symm⟩
  | some w =>
    rw [hw] at hroot
    obtain ⟨w', hw', -⟩ := Option.map_eq_some_iff.1 hroot.symm
    refine .inr ⟨w, w', rfl, hw', fun b => ?_⟩
    rw [← Value.seen_append hw, ← Value.seen_append hw']
    exact h b

theorem takes_of_seen (hmeans : Visible means) (hv' : v'.Tidy)
    (h : ∀ b, v.seen (a ++ b) = v'.seen (a ++ b)) (ht : Takes (v.at? a) means fallback x) :
    Takes (v'.at? a) means fallback x := by
  rcases at?_of_seen h with ⟨hnone, hnone'⟩ | ⟨w, w', hw, hw', hseen⟩
  · rw [hnone'] at *
    rwa [hnone] at ht
  · rw [hw, takes_some_iff] at ht
    rw [hw', takes_some_iff]
    exact hmeans w w' x (tidy_at? hv' hw') hseen ht

theorem gives_of_seen (hmeans : Visible means) (hv' : v'.Tidy)
    (h : ∀ b, v.seen (a ++ b) = v'.seen (a ++ b)) (hg : Gives (v.at? a) means x) :
    Gives (v'.at? a) means x := by
  obtain ⟨u, hu, hmeans'⟩ := hg
  rcases at?_of_seen h with ⟨hnone, -⟩ | ⟨w, w', hw, hw', hseen⟩
  · rw [hnone] at hu
    cases hu
  · cases hw.symm.trans hu
    exact ⟨w', hw', hmeans _ w' x (tidy_at? hv' hw') hseen hmeans'⟩

end Addresses

/-- The two rules look the same in their fields. -/
def RulesAgree (w w' : Value) : Prop :=
  w'.Tidy ∧ ∀ k ∈ ruleFields, ∀ b, w.seen (.key k :: b) = w'.seen (.key k :: b)

theorem RulesAgree.ruleIs {w w' : Value} (h : RulesAgree w w') {r : Rule} (hr : RuleIs w r) :
    RuleIs w' r where
  label := gives_of_seen visible_text h.1 (h.2 "label" (by decide)) hr.label
  patterns := gives_of_seen visible_texts h.1 (h.2 "patterns" (by decide)) hr.patterns
  severity := gives_of_seen visible_severity h.1 (h.2 "severity" (by decide)) hr.severity

/-- Lists whose items are related position by position. -/
theorem forall₂_of_getElem? {α β : Type} {R : α → β → Prop} {xs : List α} {ys : List β}
    (h : ∀ i : Nat, xs[i]? = none ∧ ys[i]? = none ∨
      ∃ x y, xs[i]? = some x ∧ ys[i]? = some y ∧ R x y) : Forall₂ R xs ys := by
  induction xs generalizing ys with
  | nil =>
    cases ys with
    | nil => exact .nil
    | cons y ys => simpa using h 0
  | cons x xs ih =>
    cases ys with
    | nil => simpa using h 0
    | cons y ys =>
      refine .cons ?_ (ih fun i => by simpa using h (i + 1))
      simpa using h 0

theorem forall₂_ruleIs {items items' : List Value} {rs : List Rule}
    (h : Forall₂ RulesAgree items items') (hrs : Forall₂ RuleIs items rs) :
    Forall₂ RuleIs items' rs := by
  induction h generalizing rs with
  | nil =>
    cases hrs
    exact .nil
  | cons hw _ ih =>
    cases hrs with
    | cons hr hrs => exact .cons (hw.ruleIs hr) (ih hrs)

variable {es es' : Entries} {c : Config}

theorem recognised_field {name k : String} {names : List String} (hnames : (name, names) ∈ sections)
    (hk : k ∈ names) (b : Address) : Recognised ([.key name, .key k] ++ b) :=
  ⟨(name, names), hnames, rfl, hk⟩

theorem Agree.takes (h : Agree es es') (hes' : es'.Tidy) {α : Type} {means : Value → α → Prop}
    (hmeans : Visible means) {name k : String} {names : List String}
    (hnames : (name, names) ∈ sections) (hk : k ∈ names) {fallback x : α}
    (ht : Takes (es.at? [.key name, .key k]) means fallback x) :
    Takes (es'.at? [.key name, .key k]) means fallback x :=
  takes_of_seen hmeans hes' (fun b => h _ (recognised_field hnames hk b)) ht

/-- The rules look the same position by position. -/
theorem Agree.forall₂_rulesAgree (h : Agree es es') (hes' : es'.Tidy) {items items' : List Value}
    {extensible extensible' : Bool} (hrules : es.lookup "rules" = some (.array items extensible))
    (hrules' : es'.lookup "rules" = some (.array items' extensible')) :
    Forall₂ RulesAgree items items' := by
  refine forall₂_of_getElem? fun i => ?_
  have hseen (b : Address) (hb : Recognised (.key "rules" :: .item i :: b)) :
      items[i]?.bind (·.seen b) = items'[i]?.bind (·.seen b) := by
    have hsame := h _ hb
    unfold Entries.seen at hsame
    rwa [Value.seen_key, Value.seen_key, hrules, hrules', Option.bind_some, Option.bind_some,
      Value.seen_item, Value.seen_item] at hsame
  have hitem := hseen [] rfl
  cases hw : items[i]? with
  | none =>
    rw [hw] at hitem
    cases hw' : items'[i]? with
    | none => exact .inl ⟨rfl, rfl⟩
    | some w' =>
      rw [hw', Option.bind_some, Value.seen_nil] at hitem
      cases hitem
  | some w =>
    cases hw' : items'[i]? with
    | none =>
      rw [hw, hw', Option.bind_some, Value.seen_nil] at hitem
      cases hitem
    | some w' =>
      have htidy := Value.tidy_array_iff.1 (hes'.lookup hrules') w' (List.mem_of_getElem? hw')
      refine .inr ⟨w, w', rfl, rfl, htidy, fun k hk b => ?_⟩
      have hfield := hseen (.key k :: b) ⟨rfl, hk⟩
      rwa [hw, hw', Option.bind_some, Option.bind_some] at hfield

theorem Agree.rules (h : Agree es es') (hes' : es'.Tidy) {rs : List Rule}
    (ht : Takes (es.at? [.key "rules"]) RulesAre BuiltIn.php rs) :
    Takes (es'.at? [.key "rules"]) RulesAre BuiltIn.php rs := by
  have hroot := h [.key "rules"] rfl
  rw [seen_key, seen_key] at hroot
  have hat (es : Entries) : es.at? [.key "rules"] = es.lookup "rules" := at?_key .header es "rules"
  rw [hat] at ht ⊢
  cases hlookup : es.lookup "rules" with
  | none =>
    rw [hlookup] at hroot ht
    rw [Option.map_eq_none_iff.1 hroot.symm]
    exact ht
  | some v =>
    rw [hlookup, takes_some_iff] at ht
    obtain ⟨items, extensible, rfl, hrs⟩ := ht
    rw [hlookup] at hroot
    obtain ⟨v', hlookup', hshape⟩ := Option.map_eq_some_iff.1 hroot.symm
    obtain ⟨items', extensible', rfl⟩ := exists_array hshape
    rw [hlookup', takes_some_iff]
    exact ⟨items', extensible', rfl,
      forall₂_ruleIs (h.forall₂_rulesAgree hes' hlookup hlookup') hrs⟩

/-- **A configuration depends on what can be seen at the addresses that it looks at.** -/
theorem describes_congr (h : Agree es es') (hes' : es'.Tidy) (hc : Describes es c) :
    Describes es' c where
  root := h.takes hes' visible_path (.head _) (by decide) hc.root
  extensions := h.takes hes' visible_texts (.head _) (by decide) hc.extensions
  exclude := h.takes hes' visible_texts (.head _) (by decide) hc.exclude
  enabled := h.takes hes' visible_boolean (.tail _ (.head _)) (by decide) hc.enabled
  command := h.takes hes' visible_text (.tail _ (.head _)) (by decide) hc.command
  config := h.takes hes' visible_text (.tail _ (.head _)) (by decide) hc.config
  requireConfig := h.takes hes' visible_boolean (.tail _ (.head _)) (by decide) hc.requireConfig
  prompt := h.takes hes' visible_text (.tail _ (.head _)) (by decide) hc.prompt
  timeout := h.takes hes' visible_limit (.tail _ (.head _)) (by decide) hc.timeout
  failureOutputLines :=
    h.takes hes' visible_natural (.tail _ (.head _)) (by decide) hc.failureOutputLines
  check := h.takes hes' visible_boolean (.tail _ (.tail _ (.head _))) (by decide) hc.check
  tool := h.takes hes' visible_text (.tail _ (.tail _ (.head _))) (by decide) hc.tool
  versionArg := h.takes hes' visible_text (.tail _ (.tail _ (.head _))) (by decide) hc.versionArg
  minVersion := h.takes hes' visible_text (.tail _ (.tail _ (.head _))) (by decide) hc.minVersion
  blockOnError :=
    h.takes hes' visible_boolean (.tail _ (.tail _ (.tail _ (.head _)))) (by decide) hc.blockOnError
  rules := h.rules hes' hc.rules

theorem Agree.symm (h : Agree es es') : Agree es' es :=
  fun a ha => (h a ha).symm

/-- Documents that agree are read as the same configuration. -/
theorem ofEntries?_congr (h : Agree es es') (hes : es.Tidy) (hes' : es'.Tidy)
    (sectioned : Sectioned es) (sectioned' : Sectioned es') : ofEntries? es = ofEntries? es' := by
  refine Option.ext fun c => ?_
  rw [ofEntries?_eq_some_iff sectioned, ofEntries?_eq_some_iff sectioned']
  exact ⟨describes_congr h hes', describes_congr h.symm hes⟩

/-! ## Texts -/

variable {text text' : String}

/-- What comes of reading a text, but for what the parser has to say about it. -/
def outcome : Except Failure Config → Except Failure Config
  | .error (.configParse context _) => .error (.configParse context [])
  | r => r

section Reading

variable [Toml.Diagnosis]

theorem read_of_parse? (parsed : Toml.parse? text = some es) :
    read text = match ofEntries? es with
      | none => .error (.configParse "Failed to parse TOML" [Toml.Diagnosis.text text])
      | some c => c.validate.map fun _ => c := by
  unfold read
  rw [parsed]
  rfl

/-- **What is read is the configuration that the document describes, when it is valid.** -/
theorem read_eq_ok_iff (parsed : Toml.parse? text = some es) (sectioned : Sectioned es)
    (c : Config) : read text = .ok c ↔ Describes es c ∧ c.validate = .ok () := by
  rw [read_of_parse? parsed, ← ofEntries?_eq_some_iff sectioned]
  cases hdescribed : ofEntries? es with
  | none => simp
  | some c' =>
    show c'.validate.map (fun _ => c') = .ok c ↔ _
    rw [Option.some.injEq]
    cases hvalid : c'.validate with
    | error e =>
      simp only [Except.map, reduceCtorEq, false_iff, not_and]
      rintro rfl hok
      rw [hvalid] at hok
      cases hok
    | ok u =>
      simp only [Except.map, Except.ok.injEq]
      constructor
      · rintro rfl
        exact ⟨rfl, hvalid⟩
      · exact fun h => h.1

/-- Documents that are read as the same configuration have the same outcome. -/
theorem outcome_read_congr (parsed : Toml.parse? text = some es)
    (parsed' : Toml.parse? text' = some es') (h : ofEntries? es' = ofEntries? es) :
    outcome (read text') = outcome (read text) := by
  rw [read_of_parse? parsed', read_of_parse? parsed, h]
  cases ofEntries? es <;> rfl

/-- Texts that say the same wherever a configuration looks are read as the same. -/
theorem read_congr (parsed : Toml.parse? text = some es) (sectioned : Sectioned es)
    (parsed' : Toml.parse? text' = some es') (sectioned' : Sectioned es')
    (same : ∀ a, Recognised a → ∀ s, Asserts text' a s ↔ Asserts text a s) :
    outcome (read text') = outcome (read text) := by
  have hagree : Agree es' es := by
    intro a ha
    refine Option.ext fun s => ?_
    rw [Toml.seen_iff_asserts parsed', Toml.seen_iff_asserts parsed]
    exact same a ha s
  exact outcome_read_congr parsed parsed' (ofEntries?_congr hagree (Toml.tidy_parse? parsed')
    (Toml.tidy_parse? parsed) sectioned' sectioned)

end Reading

end CommitGate.Config

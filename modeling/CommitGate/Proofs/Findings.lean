import CommitGate.Proofs.FileSet
import Mathlib.Data.List.Forall2

/-!
# The list of findings

A rule has a position in its list and a file has one in its set. The findings are told by the pairs
of positions where a rule hits a file: one finding for each pair, rule by rule and file by file,
each with the first of the rule's patterns that stands in the content. What is counted and printed
later comes from this list, so it must neither lose a pair nor have one twice.

Results:

* `firstMatch?_eq_some_iff`: the pattern of a finding is the first that stands in the content.
* `exists_hitFiles`: the findings of one rule are told by the positions of the files it hits.
* `exists_hitPairs`: the findings of all rules are told by the pairs of positions.
* `checkAll_exact`: the list of findings, with their counts, is exact and in order.
-/

namespace CommitGate

open List (Forall₂)

/-- One of the patterns of the rule stands in the content, as a contiguous run. -/
def Rule.Hits (r : Rule) (content : String) : Prop :=
  ∃ p ∈ r.patterns, p.toList <:+: content.toList

/-- The pattern stands in the content, and none before it in the list does. -/
def FirstStanding (patterns : List String) (content pattern : String) : Prop :=
  ∃ before after, patterns = before ++ pattern :: after ∧ pattern.toList <:+: content.toList ∧
    ∀ p ∈ before, ¬ p.toList <:+: content.toList

theorem stands_iff_infix (p content : String) :
    stands p content = true ↔ p.toList <:+: content.toList :=
  Text.occursIn_iff_isInfix p.toList content.toList

theorem containsAny_iff (r : Rule) (content : String) :
    containsAny r.patterns content = true ↔ r.Hits content := by
  simp only [containsAny, List.any_eq_true, stands_iff_infix, Rule.Hits]

theorem firstMatch?_eq_some_iff (r : Rule) (content pattern : String) :
    r.firstMatch? content = some pattern ↔ FirstStanding r.patterns content pattern := by
  have hnot (p : String) : (!stands p content) = true ↔ ¬ p.toList <:+: content.toList := by
    rw [← stands_iff_infix, Bool.not_eq_true', Bool.not_eq_true]
  rw [Rule.firstMatch?, List.find?_eq_some_iff_append, stands_iff_infix]
  simp only [hnot]
  constructor
  · rintro ⟨hp, before, after, hsplit, hbefore⟩
    exact ⟨before, after, hsplit, hp, hbefore⟩
  · rintro ⟨before, after, hsplit, hp, hbefore⟩
    exact ⟨hp, before, after, hsplit, hbefore⟩

theorem not_hits_of_firstMatch?_eq_none {r : Rule} {content : String}
    (h : r.firstMatch? content = none) : ¬ r.Hits content := by
  rw [← containsAny_iff, ← firstMatch?_isSome, h]
  simp

theorem hits_of_firstMatch?_eq_some {r : Rule} {content pattern : String}
    (h : r.firstMatch? content = some pattern) : r.Hits content := by
  rw [← containsAny_iff, ← firstMatch?_isSome, h]
  rfl

/-- What stands at a position after one more element. -/
theorem getElem?_concat_eq_some_iff {α : Type} (xs : List α) (x y : α) (i : Nat) :
    (xs ++ [x])[i]? = some y ↔ xs[i]? = some y ∨ i = xs.length ∧ x = y := by
  rcases Nat.lt_trichotomy i xs.length with h | rfl | h
  · rw [List.getElem?_append_left h]
    simp [Nat.ne_of_lt h]
  · simp
  · rw [List.getElem?_eq_none (by simp; omega), List.getElem?_eq_none (Nat.le_of_lt h)]
    simp [Nat.ne_of_gt h]

namespace FileSet

variable {files : FileSet} {rules : List Rule}

/-! ## One rule -/

/-- The rule hits the file at that position. -/
def HitAt (files : FileSet) (r : Rule) (j : Nat) : Prop :=
  ∃ f, files.entries[j]? = some f ∧ r.Hits f.2

/-- The finding tells that the rule hits the file at that position. -/
def TellsAt (files : FileSet) (r : Rule) (j : Nat) (f : Finding) : Prop :=
  f.rule = r ∧ ∃ content, files.entries[j]? = some (f.path, content) ∧
    FirstStanding r.patterns content f.pattern

theorem check_concat (es : List (Path × String)) (e : Path × String) (r : Rule) :
    check ⟨es ++ [e]⟩ r =
      check ⟨es⟩ r ++ ((r.firstMatch? e.2).map fun pattern => ⟨e.1, r, pattern⟩).toList := by
  simp only [check, List.filterMap_append, List.append_cancel_left_eq]
  cases h : r.firstMatch? e.2 <;> simp [h]

theorem HitAt.concat {es : List (Path × String)} {r : Rule} {e : Path × String} {j : Nat} :
    HitAt ⟨es ++ [e]⟩ r j ↔ HitAt ⟨es⟩ r j ∨ j = es.length ∧ r.Hits e.2 := by
  simp only [HitAt, getElem?_concat_eq_some_iff]
  grind

theorem TellsAt.concat {es : List (Path × String)} {r : Rule} {j : Nat} {f : Finding}
    (h : TellsAt ⟨es⟩ r j f) (e : Path × String) : TellsAt ⟨es ++ [e]⟩ r j f := by
  obtain ⟨hrule, content, hfile, hfirst⟩ := h
  exact ⟨hrule, content, (getElem?_concat_eq_some_iff _ _ _ _).2 (.inl hfile), hfirst⟩

/-- **The findings of one rule are told by the positions of the files it hits**, in their order. -/
theorem exists_hitFiles (files : FileSet) (r : Rule) :
    ∃ js : List Nat, js.Pairwise (· < ·) ∧ (∀ j, j ∈ js ↔ files.HitAt r j) ∧
      Forall₂ (files.TellsAt r) js (files.check r) := by
  obtain ⟨es⟩ := files
  induction es using List.reverseRecOn with
  | nil => exact ⟨[], .nil, by simp [HitAt], .nil⟩
  | append_singleton es e ih =>
    obtain ⟨js, hsorted, hmem, htells⟩ := ih
    have htells' : Forall₂ (TellsAt ⟨es ++ [e]⟩ r) js (check ⟨es⟩ r) :=
      htells.imp fun _ _ h => h.concat e
    rw [check_concat]
    cases hfirst : r.firstMatch? e.2 with
    | none =>
      have hnot := not_hits_of_firstMatch?_eq_none hfirst
      exact ⟨js, hsorted, fun j => by simp [HitAt.concat, hmem, hnot], by simpa using htells'⟩
    | some pattern =>
      have hhits := hits_of_firstMatch?_eq_some hfirst
      have hlt : ∀ j ∈ js, j < es.length := fun j hj => by
        obtain ⟨f, hf, -⟩ := (hmem j).1 hj
        exact (List.getElem?_eq_some_iff.1 hf).1
      refine ⟨js ++ [es.length], ?_, ?_, ?_⟩
      · exact List.pairwise_append.2 ⟨hsorted, List.pairwise_singleton _ _, by simpa using hlt⟩
      · intro j
        simp [HitAt.concat, hmem, hhits]
      · refine List.rel_append htells' (.cons ⟨rfl, e.2, ?_, ?_⟩ .nil)
        · simp
        · exact (firstMatch?_eq_some_iff r e.2 pattern).1 hfirst

/-- The findings of one rule stand in the order of their paths. -/
theorem pairwise_check (files : FileSet) (h : files.InOrder) (r : Rule) :
    (files.check r).Pairwise fun f g => f.path.order g.path = .lt := by
  refine List.Pairwise.filterMap _ (fun e e' hlt f hf g hg => ?_) h
  obtain ⟨pattern, -, rfl⟩ := Option.map_eq_some_iff.1 hf
  obtain ⟨pattern', -, rfl⟩ := Option.map_eq_some_iff.1 hg
  exact hlt

/-! ## All rules -/

/-- The first pair comes before the second: its rule does, or its file under the same rule. -/
def Earlier (a b : Nat × Nat) : Prop :=
  a.1 < b.1 ∨ a.1 = b.1 ∧ a.2 < b.2

/-- The rule at the first position hits the file at the second. -/
def HitPair (files : FileSet) (rules : List Rule) (pair : Nat × Nat) : Prop :=
  ∃ r, rules[pair.1]? = some r ∧ files.HitAt r pair.2

/-- The finding tells that the rule at the first position hits the file at the second. -/
def TellsPair (files : FileSet) (rules : List Rule) (pair : Nat × Nat) (f : Finding) : Prop :=
  ∃ r, rules[pair.1]? = some r ∧ files.TellsAt r pair.2 f

/-- The rule of the pair has that severity. -/
def HasSeverity (rules : List Rule) (s : Severity) (pair : Nat × Nat) : Bool :=
  rules[pair.1]?.any fun r => r.severity = s

theorem HitPair.concat {r : Rule} {pair : Nat × Nat} :
    files.HitPair (rules ++ [r]) pair ↔
      files.HitPair rules pair ∨ pair.1 = rules.length ∧ files.HitAt r pair.2 := by
  simp only [HitPair, getElem?_concat_eq_some_iff]
  grind

theorem TellsPair.concat {pair : Nat × Nat} {f : Finding} (h : files.TellsPair rules pair f)
    (r : Rule) : files.TellsPair (rules ++ [r]) pair f := by
  obtain ⟨r', hrule, htells⟩ := h
  exact ⟨r', (getElem?_concat_eq_some_iff _ _ _ _).2 (.inl hrule), htells⟩

/-- **The findings of all rules are told by the pairs of a rule and a file it hits**, in their
order. -/
theorem exists_hitPairs (files : FileSet) (rules : List Rule) :
    ∃ pairs : List (Nat × Nat), pairs.Pairwise Earlier ∧
      (∀ pair, pair ∈ pairs ↔ files.HitPair rules pair) ∧
      Forall₂ (files.TellsPair rules) pairs (files.checkAll rules) := by
  induction rules using List.reverseRecOn with
  | nil => exact ⟨[], .nil, by simp [HitPair], .nil⟩
  | append_singleton rules r ih =>
    obtain ⟨pairs, hsorted, hmem, htells⟩ := ih
    obtain ⟨js, hjs, hmemj, htellsj⟩ := exists_hitFiles files r
    have hlt : ∀ pair ∈ pairs, pair.1 < rules.length := fun pair hpair => by
      obtain ⟨r', hr', -⟩ := (hmem pair).1 hpair
      exact (List.getElem?_eq_some_iff.1 hr').1
    refine ⟨pairs ++ js.map fun j => (rules.length, j), ?_, ?_, ?_⟩
    · refine List.pairwise_append.2 ⟨hsorted, ?_, fun pair hpair later hlater => ?_⟩
      · exact List.pairwise_map.2 (hjs.imp fun h => .inr ⟨rfl, h⟩)
      · obtain ⟨j, -, rfl⟩ := List.mem_map.1 hlater
        exact .inl (hlt pair hpair)
    · rintro ⟨i, j⟩
      rw [List.mem_append, hmem, HitPair.concat, List.mem_map]
      refine or_congr_right ?_
      constructor
      · rintro ⟨j', hj, hpair⟩
        obtain ⟨rfl, rfl⟩ := Prod.mk.inj hpair
        exact ⟨rfl, (hmemj j').1 hj⟩
      · rintro ⟨rfl, hj⟩
        exact ⟨j, (hmemj j).2 hj, rfl⟩
    · have hchecked : files.checkAll (rules ++ [r]) = files.checkAll rules ++ files.check r := by
        rw [checkAll_append]
        simp [checkAll]
      rw [hchecked]
      refine List.rel_append (htells.imp fun _ _ h => h.concat r) ?_
      refine List.forall₂_map_left_iff.2 (htellsj.imp fun j f h => ⟨r, ?_, h⟩)
      simp

/-! ## Counting -/

/-- Lists whose elements are told by each other have as many of a kind. -/
theorem countP_eq_of_forall₂ {α β : Type} {R : α → β → Prop} {p : α → Bool} {q : β → Bool}
    (hpq : ∀ x y, R x y → p x = q y) {xs : List α} {ys : List β} (h : Forall₂ R xs ys) :
    xs.countP p = ys.countP q := by
  induction h with
  | nil => rfl
  | cons hxy _ ih => rw [List.countP_cons, List.countP_cons, ih, hpq _ _ hxy]

theorem hasSeverity_of_tellsPair {pair : Nat × Nat} {f : Finding}
    (h : files.TellsPair rules pair f) (s : Severity) :
    HasSeverity rules s pair = decide (f.severity = s) := by
  obtain ⟨r, hrule, rfl, -⟩ := h
  rw [HasSeverity, hrule]
  rfl

/-- **The list of findings is exact and in order.** There is one finding for each pair of a rule and
a file of which a pattern of the rule stands in the content, for no other pair and for none twice;
the findings come rule by rule and within a rule in the order of the set, which is that of the
paths; and each has the first of its rule's patterns that stands in the content. A rule matches
exactly when one of its patterns is contained. The findings of two lists of rules follow each other.
The counts are the numbers of pairs with a rule of each severity, and their total is the number of
findings. -/
theorem checkAll_exact (files : FileSet) (rules more : List Rule) :
    (∃ pairs : List (Nat × Nat), pairs.Pairwise Earlier ∧
      (∀ pair, pair ∈ pairs ↔ files.HitPair rules pair) ∧
      Forall₂ (files.TellsPair rules) pairs (files.checkAll rules) ∧
      (FindingCounts.tally (files.checkAll rules)).errors =
        pairs.countP (HasSeverity rules .error) ∧
      (FindingCounts.tally (files.checkAll rules)).warnings =
        pairs.countP (HasSeverity rules .warning)) ∧
    (FindingCounts.tally (files.checkAll rules)).total = (files.checkAll rules).length ∧
    (∀ stored r, ((ofList stored).check r).Pairwise fun f g => f.path.order g.path = .lt) ∧
    (∀ (r : Rule) content, (r.firstMatch? content).isSome = containsAny r.patterns content ∧
      (containsAny r.patterns content = true ↔ r.Hits content)) ∧
    files.checkAll (rules ++ more) = files.checkAll rules ++ files.checkAll more := by
  obtain ⟨pairs, hsorted, hmem, htells⟩ := exists_hitPairs files rules
  have hcount (s : Severity) : (files.checkAll rules).countP (fun f => f.severity = s) =
      pairs.countP (HasSeverity rules s) :=
    (countP_eq_of_forall₂ (R := files.TellsPair rules)
      (fun _ _ h => hasSeverity_of_tellsPair h s) htells).symm
  refine ⟨⟨pairs, hsorted, hmem, htells, ?_, ?_⟩, FindingCounts.total_tally _, ?_, ?_,
    checkAll_append files rules more⟩
  · rw [FindingCounts.tally_eq]
    exact hcount .error
  · rw [FindingCounts.tally_eq]
    exact hcount .warning
  · intro stored r
    exact pairwise_check _ (inOrder_ofList stored) r
  · intro r content
    exact ⟨firstMatch?_isSome r content, containsAny_iff r content⟩

end FileSet

end CommitGate

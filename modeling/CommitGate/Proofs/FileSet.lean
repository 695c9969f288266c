import CommitGate.FileSet
import CommitGate.Proofs.Path
import Mathlib.Data.List.Induction

/-!
# Look-up and findings in file sets

A file set is read through its look-up. Putting a file in changes the look-up of the paths with its
components and of no others, whether or not the entries stand in order. The findings are those of
each rule in each file.

Results:

* `get?_insert`: the look-up after putting a file in.
* `inOrder_ofList`: files put in one after the other stand in the order of their paths.
* `mem_entries_ofList`: when no two files of a list share their components, the set of the list
  holds just these files.
* `mem_checkAll`: the findings are the first hits of the rules in the files.
-/

namespace CommitGate.FileSet

/-! ## One file -/

theorem get?_insert (s : FileSet) (p q : Path) (c : String) :
    (s.insert p c).get? q = if q.components = p.components then some c else s.get? q := by
  obtain ⟨es⟩ := s
  simp only [insert, get?]
  induction es with
  | nil => by_cases h : q.components = p.components <;> simp [insertEntry, Path.order_eq_eq_iff, h]
  | cons e es ih =>
    obtain ⟨r, d⟩ := e
    rw [insertEntry]
    cases hpr : p.order r with
    | lt => by_cases h : q.components = p.components <;> simp [Path.order_eq_eq_iff, h]
    | eq =>
      rw [Path.order_eq_eq_iff] at hpr
      by_cases h : q.components = p.components <;> simp [Path.order_eq_eq_iff, h, ← hpr]
    | gt =>
      by_cases hqr : q.components = r.components
      · -- the entry passed over has other components than the file
        have hqp : q.components ≠ p.components := fun h => by
          have := (Path.order_eq_eq_iff p r).2 (h.symm.trans hqr)
          rw [hpr] at this
          cases this
        rw [if_neg hqp]
        simp [Path.order_eq_eq_iff, hqr]
      · simpa [List.find?_cons, Path.order_eq_eq_iff, hqr] using ih

theorem exists_mem_of_get? {s : FileSet} {p : Path} {c : String} (h : s.get? p = some c) :
    ∃ f ∈ s.entries, f.1.components = p.components ∧ f.2 = c := by
  obtain ⟨f, hf, rfl⟩ := Option.map_eq_some_iff.1 h
  have hp := List.find?_some hf
  simp only [decide_eq_true_eq, Path.order_eq_eq_iff] at hp
  exact ⟨f, List.mem_of_find?_eq_some hf, hp.symm, rfl⟩

/-- An entry keeps a spelling that was put in, and has the content of a file with the same
components. -/
theorem mem_entries_insert {s : FileSet} {p : Path} {c : String} {f : Path × String}
    (h : f ∈ (s.insert p c).entries) :
    f ∈ s.entries ∨ f = (p, c) ∨ f.2 = c ∧ f.1.components = p.components ∧
      ∃ d, (f.1, d) ∈ s.entries := by
  obtain ⟨es⟩ := s
  simp only [insert] at h ⊢
  induction es with
  | nil => simp [insertEntry] at h; simp [h]
  | cons e es ih =>
    obtain ⟨r, d⟩ := e
    rw [insertEntry] at h
    cases hpr : p.order r with
    | lt =>
      rw [hpr] at h
      rcases List.mem_cons.1 h with h | h
      · exact Or.inr (Or.inl h)
      · exact Or.inl h
    | eq =>
      rw [hpr] at h
      rw [Path.order_eq_eq_iff] at hpr
      rcases List.mem_cons.1 h with rfl | h
      · exact Or.inr (Or.inr ⟨rfl, hpr.symm, d, List.mem_cons_self⟩)
      · exact Or.inl (List.mem_cons_of_mem _ h)
    | gt =>
      rw [hpr] at h
      rcases List.mem_cons.1 h with rfl | h
      · exact Or.inl List.mem_cons_self
      · rcases ih h with h | h | ⟨h1, h2, d', h3⟩
        · exact Or.inl (List.mem_cons_of_mem _ h)
        · exact Or.inr (Or.inl h)
        · exact Or.inr (Or.inr ⟨h1, h2, d', List.mem_cons_of_mem _ h3⟩)

/-- The files stand in the order of their paths. -/
def InOrder (s : FileSet) : Prop :=
  s.entries.Pairwise fun f g => f.1.order g.1 = .lt

theorem inOrder_insert {s : FileSet} (h : s.InOrder) (p : Path) (c : String) :
    (s.insert p c).InOrder := by
  obtain ⟨es⟩ := s
  simp only [InOrder, insert] at h ⊢
  induction es with
  | nil => simp [insertEntry]
  | cons e es ih =>
    obtain ⟨q, d⟩ := e
    obtain ⟨hq, hes⟩ := List.pairwise_cons.1 h
    rw [insertEntry]
    cases hpq : p.order q with
    | lt =>
      refine List.pairwise_cons.2 ⟨fun f hf => ?_, h⟩
      rcases List.mem_cons.1 hf with rfl | hf
      · exact hpq
      · exact Path.order_trans hpq (hq f hf)
    | eq => exact List.pairwise_cons.2 ⟨hq, hes⟩
    | gt =>
      refine List.pairwise_cons.2 ⟨fun f hf => ?_, ih hes⟩
      -- a path behind is the one put in, or it was there
      rcases mem_entries_insert (s := ⟨es⟩) hf with hf | rfl | ⟨-, -, d', hf⟩
      · exact hq f hf
      · exact Path.order_lt_of_order_gt hpq
      · exact hq (f.1, d') hf

/-! ## A list of files -/

/-- No two files of the list share their components. -/
def Distinct (files : List (Path × String)) : Prop :=
  ∀ f ∈ files, ∀ g ∈ files, f.1.components = g.1.components → f = g

theorem ofList_concat (files : List (Path × String)) (f : Path × String) :
    ofList (files ++ [f]) = (ofList files).insert f.1 f.2 := by
  simp [ofList, List.foldl_append]

theorem inOrder_ofList (files : List (Path × String)) : (ofList files).InOrder := by
  induction files using List.reverseRecOn with
  | nil => exact List.Pairwise.nil
  | append_singleton files f ih =>
    rw [ofList_concat]
    exact inOrder_insert ih f.1 f.2

theorem exists_of_mem_entries_ofList {files : List (Path × String)} {f : Path × String}
    (h : f ∈ (ofList files).entries) :
    (∃ g ∈ files, g.1 = f.1) ∧ ∃ g ∈ files, g.1.components = f.1.components ∧ g.2 = f.2 := by
  induction files using List.reverseRecOn generalizing f with
  | nil => simp [ofList, empty] at h
  | append_singleton files g ih =>
    rw [ofList_concat] at h
    rcases mem_entries_insert h with h | rfl | ⟨hc, hp, d, hd⟩
    · obtain ⟨⟨g₁, h₁, e₁⟩, g₂, h₂, e₂⟩ := ih h
      exact ⟨⟨g₁, List.mem_append_left _ h₁, e₁⟩, g₂, List.mem_append_left _ h₂, e₂⟩
    · exact ⟨⟨g, by simp, rfl⟩, g, by simp, rfl, rfl⟩
    · obtain ⟨⟨g₁, h₁, e₁⟩, -⟩ := ih hd
      exact ⟨⟨g₁, List.mem_append_left _ h₁, e₁⟩, g, by simp, hp.symm, hc.symm⟩

theorem get?_ofList {files : List (Path × String)} (hd : Distinct files) {p : Path} {c : String} :
    (ofList files).get? p = some c ↔ ∃ f ∈ files, f.1.components = p.components ∧ f.2 = c := by
  induction files using List.reverseRecOn with
  | nil => simp [ofList, empty, get?]
  | append_singleton files g ih =>
    have ih := ih fun f hf f' hf' =>
      hd f (List.mem_append_left _ hf) f' (List.mem_append_left _ hf')
    rw [ofList_concat, get?_insert]
    by_cases h : p.components = g.1.components
    · rw [if_pos h]
      constructor
      · intro hc
        exact ⟨g, by simp, h.symm, Option.some.inj hc⟩
      · rintro ⟨f, hf, hp, rfl⟩
        rw [hd f hf g (by simp) (hp.trans h)]
    · rw [if_neg h, ih]
      constructor
      · rintro ⟨f, hf, hp⟩
        exact ⟨f, List.mem_append_left _ hf, hp⟩
      · rintro ⟨f, hf, hp, hc⟩
        rcases List.mem_append.1 hf with hf | hf
        · exact ⟨f, hf, hp, hc⟩
        · rw [List.mem_singleton] at hf
          exact absurd (hf ▸ hp.symm) h

theorem mem_entries_ofList {files : List (Path × String)} (hd : Distinct files)
    (f : Path × String) :
    f ∈ (ofList files).entries ↔ f ∈ files := by
  constructor
  · intro h
    obtain ⟨⟨g₁, h₁, e₁⟩, g₂, h₂, e₂, e₃⟩ := exists_of_mem_entries_ofList h
    obtain rfl : g₁ = g₂ := hd g₁ h₁ g₂ h₂ (by rw [e₁, e₂])
    obtain rfl : g₁ = f := Prod.ext e₁ e₃
    exact h₁
  · intro h
    obtain ⟨g, hg, hp, hc⟩ := exists_mem_of_get? ((get?_ofList hd).2 ⟨f, h, rfl, rfl⟩)
    obtain ⟨⟨g₁, h₁, e₁⟩, g₂, h₂, e₂, e₃⟩ := exists_of_mem_entries_ofList hg
    obtain rfl : g₁ = f := hd g₁ h₁ f h (by rw [e₁, hp])
    obtain rfl : g₁ = g := Prod.ext e₁ hc.symm
    exact hg

/-! ## Findings -/

theorem exists_firstMatch?_iff (r : Rule) (content : String) :
    (∃ p, r.firstMatch? content = some p) ↔ ∃ p ∈ r.patterns, p.toList <:+: content.toList := by
  rw [← Option.isSome_iff_exists, firstMatch?_isSome, containsAny, List.any_eq_true]
  simp only [stands, Text.occursIn_iff_isInfix]

theorem mem_checkAll {files : FileSet} {rules : List Rule} {f : Finding} :
    f ∈ files.checkAll rules ↔
      f.rule ∈ rules ∧ ∃ content, (f.path, content) ∈ files.entries ∧
        f.rule.firstMatch? content = some f.pattern := by
  simp only [checkAll, check, List.mem_flatMap, List.mem_filterMap, Option.map_eq_some_iff]
  constructor
  · rintro ⟨rule, hrule, ⟨path, content⟩, hfile, pattern, hmatch, rfl⟩
    exact ⟨hrule, content, hfile, hmatch⟩
  · rintro ⟨hrule, content, hfile, hmatch⟩
    exact ⟨f.rule, hrule, (f.path, content), hfile, f.pattern, hmatch, rfl⟩

end CommitGate.FileSet

import CommitGate.Proofs.Resolution

/-!
# The outline of a tree

What stands at a place, the contents of a directory apart, is the outline of a tree there. A change
to a single file shows at one place of the outline only, though every directory above it has other
contents afterwards.

Results:

* `outline?_put`: after something is put at a place, the outline is another one there and nowhere
  else.
* `outline?_erase`: the same after something other than a directory is erased.
* `outline?_revise`: after a change to a file, the outline has the changed file at all its names.
* `lt_freshNode_of_get?`: a new file has a number of its own.
-/

namespace CommitGate

open Text (Octets)

/-- An entry, the contents of a directory apart. -/
def Entry.outline : Entry → Entry
  | .dir _ => .dir .empty
  | e => e

namespace Tree

/-- What stands at a place, the contents of a directory apart. -/
def outline? (t : Tree) (place : List RawText) : Option Entry :=
  (t.get? place).map Entry.outline

variable {t : Tree} {place : List RawText}

/-! ## Reading the outline -/

theorem outline?_eq_none_iff : t.outline? place = none ↔ t.get? place = none := by
  simp [outline?]

theorem outline?_eq_file_iff {k : Nat} {c : Octets} {m : Nat} :
    t.outline? place = some (.file k c m) ↔ t.get? place = some (.file k c m) := by
  unfold outline?
  rcases t.get? place with _ | (⟨k', c', m'⟩ | ⟨k', g'⟩ | u) <;> simp [Entry.outline]

theorem outline?_eq_link_iff {k : Nat} {g : RawText} :
    t.outline? place = some (.link k g) ↔ t.get? place = some (.link k g) := by
  unfold outline?
  rcases t.get? place with _ | (⟨k', c', m'⟩ | ⟨k', g'⟩ | u) <;> simp [Entry.outline]

theorem outline?_eq_dir_iff :
    t.outline? place = some (.dir .empty) ↔ ∃ u, t.get? place = some (.dir u) := by
  unfold outline?
  rcases t.get? place with _ | (⟨k', c', m'⟩ | ⟨k', g'⟩ | u) <;> simp [Entry.outline]

/-- What is no directory is its own outline. -/
theorem outline?_eq_some_iff {e : Entry} (he : ∀ u, e ≠ .dir u) :
    t.outline? place = some e ↔ t.get? place = some e := by
  cases e with
  | file k c m => exact outline?_eq_file_iff
  | link k g => exact outline?_eq_link_iff
  | dir u => exact absurd rfl (he u)

@[simp] theorem outline?_nil (t : Tree) : t.outline? [] = some (.dir .empty) := rfl

theorem outline?_cons_of_dir {u : Tree} {n : RawText} (h : t.find? n = some (.dir u))
    (names : List RawText) : t.outline? (n :: names) = u.outline? names := by
  rw [outline?, get?_cons, h, outline?]

/-- Below something that is no directory stands nothing. -/
theorem outline?_cons_of_not_dir {n : RawText} (h : ∀ u, t.find? n ≠ some (.dir u))
    (names : List RawText) : t.outline? (n :: names) = if names = [] then t.find? n else none := by
  rw [outline?, get?_cons]
  rcases hf : t.find? n with _ | (⟨k, c, m⟩ | ⟨k, g⟩ | u)
  · simp
  · by_cases hn : names = [] <;> simp [hn, Entry.outline]
  · by_cases hn : names = [] <;> simp [hn, Entry.outline]
  · exact absurd hf (h u)

theorem outline?_cons_congr {t' : Tree} {n : RawText} (h : t'.find? n = t.find? n)
    (names : List RawText) : t'.outline? (n :: names) = t.outline? (n :: names) := by
  rw [outline?, outline?, get?_cons, get?_cons, h]

theorem outline?_empty {names : List RawText} (h : names ≠ []) : empty.outline? names = none := by
  obtain ⟨n, r, rfl⟩ := List.exists_cons_of_ne_nil h
  rw [outline?_cons_of_not_dir (by simp [find?])]
  simp [find?]

/-- Below an entry that holds nothing stands nothing. -/
theorem outline?_cons_of_outline {n : RawText} {e : Entry} (h : t.find? n = some e)
    (he : e.outline = e) (names : List RawText) :
    t.outline? (n :: names) = if names = [] then some e else none := by
  cases e with
  | dir u =>
    cases he
    rw [outline?_cons_of_dir h]
    by_cases hn : names = []
    · simp [hn]
    · simp [hn, outline?_empty hn]
  | file k c m => rw [outline?_cons_of_not_dir (by simp [h]), h]
  | link k g => rw [outline?_cons_of_not_dir (by simp [h]), h]

/-! ## Changing one place -/

theorem put_of_dir {u : Tree} {n : RawText} (h : t.find? n = some (.dir u)) {names : List RawText}
    (hne : names ≠ []) (e : Entry) :
    t.put (n :: names) e = t.insert n (.dir (u.put names e)) := by
  rw [put.eq_3 t e n names (by simpa using hne), h]

theorem put_of_not_dir {n : RawText} (h : ∀ u, t.find? n ≠ some (.dir u)) {names : List RawText}
    (hne : names ≠ []) (e : Entry) : t.put (n :: names) e = t := by
  rw [put.eq_3 t e n names (by simpa using hne)]
  split
  · exact absurd ‹_› (h _)
  · rfl

theorem erase_of_dir {u : Tree} {n : RawText} (h : t.find? n = some (.dir u)) {names : List RawText}
    (hne : names ≠ []) : t.erase (n :: names) = t.insert n (.dir (u.erase names)) := by
  rw [erase.eq_3 t n names (by simpa using hne), h]

theorem erase_of_not_dir {n : RawText} (h : ∀ u, t.find? n ≠ some (.dir u)) {names : List RawText}
    (hne : names ≠ []) : t.erase (n :: names) = t := by
  rw [erase.eq_3 t n names (by simpa using hne)]
  split
  · exact absurd ‹_› (h _)
  · rfl

/-- A directory with other contents shows below its name only. -/
theorem outline?_insert_dir (t v : Tree) (n m : RawText) (names : List RawText) :
    (t.insert n (.dir v)).outline? (m :: names) =
      if m = n then v.outline? names else t.outline? (m :: names) := by
  by_cases hm : m = n
  · subst hm
    have hnew : (t.insert m (.dir v)).find? m = some (.dir v) := by rw [find?_insert, if_pos rfl]
    rw [outline?_cons_of_dir hnew, if_pos rfl]
  · have hsame : (t.insert n (.dir v)).find? m = t.find? m := by
      rw [find?_insert, if_neg (Ne.symm hm)]
    rw [outline?_cons_congr hsame, if_neg hm]

theorem not_dir_of_cons {u : Tree} {p : RawText} (hu : t.find? p = some (.dir u))
    (hfree : ∀ v, t.get? (p :: place) ≠ some (.dir v)) (v : Tree) :
    u.get? place ≠ some (.dir v) := by
  intro hv
  refine hfree v ?_
  rw [get?_cons, hu]
  exact hv

/-- **After something is put at a place**, it stands there if the place is in a directory, and
every other place has what it had. What stood there must be no directory, and what is put there none
that holds anything. -/
theorem outline?_put {n : RawText} {e : Entry} (he : e.outline = e)
    (hfree : ∀ u, t.get? (place ++ [n]) ≠ some (.dir u)) (q : List RawText) :
    (t.put (place ++ [n]) e).outline? q =
      if q = place ++ [n] ∧ t.outline? place = some (.dir .empty) then some e
      else t.outline? q := by
  induction place generalizing t q with
  | nil =>
    have hput : t.put ([] ++ [n]) e = t.insert n e := rfl
    have hold : ∀ u, t.find? n ≠ some (.dir u) := hfree
    rw [hput]
    cases q with
    | nil => simp
    | cons m r =>
      by_cases hm : n = m
      · subst hm
        have hnew : (t.insert n e).find? n = some e := by rw [find?_insert, if_pos rfl]
        rw [outline?_cons_of_outline hnew he, outline?_cons_of_not_dir hold]
        by_cases hr : r = [] <;> simp [hr]
      · have hsame : (t.insert n e).find? m = t.find? m := by rw [find?_insert, if_neg hm]
        rw [outline?_cons_congr hsame]
        simp [Ne.symm hm]
  | cons p ps ih =>
    rw [List.cons_append] at hfree ⊢
    by_cases hdir : ∃ u, t.find? p = some (.dir u)
    · obtain ⟨u, hu⟩ := hdir
      rw [put_of_dir hu (by simp)]
      cases q with
      | nil => simp
      | cons m r =>
        rw [outline?_insert_dir, ih (not_dir_of_cons hu hfree), outline?_cons_of_dir hu]
        by_cases hm : m = p
        · subst hm
          rw [outline?_cons_of_dir hu]
          simp
        · simp [hm]
    · have hnot : ∀ u, t.find? p ≠ some (.dir u) := fun u hu => hdir ⟨u, hu⟩
      have hparent : t.outline? (p :: ps) ≠ some (.dir .empty) := by
        rw [outline?_cons_of_not_dir hnot]
        split
        · exact hnot _
        · simp
      rw [put_of_not_dir hnot (by simp), if_neg fun h => hparent h.2]

/-- **After something other than a directory is erased**, nothing stands at its place, and every
other place has what it had. -/
theorem outline?_erase {n : RawText} (hfree : ∀ u, t.get? (place ++ [n]) ≠ some (.dir u))
    (q : List RawText) :
    (t.erase (place ++ [n])).outline? q = if q = place ++ [n] then none else t.outline? q := by
  induction place generalizing t q with
  | nil =>
    have herase : t.erase ([] ++ [n]) = t.remove n := rfl
    have hold : ∀ u, t.find? n ≠ some (.dir u) := hfree
    rw [herase]
    cases q with
    | nil => simp
    | cons m r =>
      by_cases hm : n = m
      · subst hm
        have hnew : (t.remove n).find? n = none := by rw [find?_remove, if_pos rfl]
        rw [outline?_cons_of_not_dir (by simp [hnew]), hnew, outline?_cons_of_not_dir hold]
        by_cases hr : r = [] <;> simp [hr]
      · have hsame : (t.remove n).find? m = t.find? m := by rw [find?_remove, if_neg hm]
        rw [outline?_cons_congr hsame]
        simp [Ne.symm hm]
  | cons p ps ih =>
    rw [List.cons_append] at hfree ⊢
    by_cases hdir : ∃ u, t.find? p = some (.dir u)
    · obtain ⟨u, hu⟩ := hdir
      rw [erase_of_dir hu (by simp)]
      cases q with
      | nil => simp
      | cons m r =>
        rw [outline?_insert_dir, ih (not_dir_of_cons hu hfree)]
        by_cases hm : m = p
        · subst hm
          rw [outline?_cons_of_dir hu]
          simp
        · simp [hm]
    · have hnot : ∀ u, t.find? p ≠ some (.dir u) := fun u hu => hdir ⟨u, hu⟩
      -- nothing stands below what is no directory, so nothing is erased there
      have hnone : t.outline? (p :: (ps ++ [n])) = none := by
        rw [outline?_cons_of_not_dir hnot, if_neg (by simp)]
      rw [erase_of_not_dir hnot (by simp)]
      split
      · next hq => rw [hq, hnone]
      · rfl

/-! ## Changing one file -/

/-- **After a change to a file** the outline has the changed file at all its names, and nothing else
has changed. -/
theorem outline?_revise (node : Nat) (content : Octets → Octets) (mode : Nat → Nat) (t : Tree)
    (place : List RawText) :
    (t.revise node content mode).outline? place =
      (t.outline? place).map (Entry.revise node content mode) := by
  rw [outline?, get?_revise, outline?]
  rcases t.get? place with _ | (⟨k, c, m⟩ | ⟨k, g⟩ | u)
  · rfl
  · by_cases hk : k = node <;> simp [Entry.revise, Entry.outline, hk]
  · rfl
  · rfl

/-- Two changes to one file are one change. -/
theorem revise_revise (node : Nat) (content content' : Octets → Octets) (mode mode' : Nat → Nat)
    (t : Tree) :
    (t.revise node content mode).revise node content' mode' =
      t.revise node (content' ∘ content) (mode' ∘ mode) := by
  induction t with
  | empty => rfl
  | file n k c m r ih => by_cases hk : k = node <;> simp [revise, hk, ih]
  | link n k g r ih => rw [revise, revise, revise, ih]
  | dir n d r ihd ih => rw [revise, revise, revise, ihd, ih]

/-! ## Numbers -/

theorem freshNode_le_of_find? {u : Tree} {n : RawText} (h : t.find? n = some (.dir u)) :
    u.freshNode ≤ t.freshNode := by
  induction t with
  | empty => cases h
  | file m k c mode r ih | link m k g r ih =>
    rw [find?] at h
    split at h
    · cases h
    · exact (ih h).trans (le_max_right _ _)
  | dir m d r _ ih =>
    rw [find?] at h
    split at h
    · cases h
      exact le_max_left _ _
    · exact (ih h).trans (le_max_right _ _)

theorem lt_freshNode_of_find? {n : RawText} {e : Entry} {k : Nat} (h : t.find? n = some e)
    (hk : e.node? = some k) : k < t.freshNode := by
  induction t with
  | empty => cases h
  | file m k' c mode r ih | link m k' g r ih =>
    rw [find?] at h
    split at h
    · cases h
      cases hk
      exact lt_of_lt_of_le (Nat.lt_succ_self k) (le_max_left _ _)
    · exact (ih h).trans_le (le_max_right _ _)
  | dir m d r _ ih =>
    rw [find?] at h
    split at h
    · cases h
      cases hk
    · exact (ih h).trans_le (le_max_right _ _)

/-- **A new file has a number of its own.** -/
theorem lt_freshNode_of_get? {e : Entry} {k : Nat} (h : t.get? place = some e)
    (hk : e.node? = some k) : k < t.freshNode := by
  induction place generalizing t with
  | nil =>
    cases h
    cases hk
  | cons n names ih =>
    rw [get?_cons] at h
    split at h
    · next u hu => exact (ih h).trans_le (freshNode_le_of_find? hu)
    · split at h
      · exact lt_freshNode_of_find? h hk
      · cases h

end Tree

end CommitGate

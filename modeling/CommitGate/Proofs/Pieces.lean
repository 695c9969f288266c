import CommitGate.Text.Blank
import CommitGate.Text.Search
import Mathlib.Data.List.Infix
import Mathlib.Data.List.TakeWhile

/-!
# Trimmed texts and their pieces

Trimming takes the blank characters off both ends of a text and nothing else, and cutting a text at
a separator that cannot reach into itself undoes the joining of pieces that do not hold it. Both are
told by how the text is put together, so that what is read from a text can be told without the
reader.

Results:

* `trimmed_eq_iff`: what is left after trimming stands between blank ends and has none of its own.
* `OccursAt.disjoint`, `IsCutAt.occursAt_iff`: occurrences of such a separator never overlap, and
  they are the places where two pieces are joined.
* `isCutAt_iff`: there is one way to cut a list at such a separator.
* `splitOn_singleton_iff`: the pieces of a text are those without the separator that joined by it
  give the text.
-/

namespace CommitGate.Text

/-! ## Trimming -/

theorem dropWhile_eq_iff {α : Type} {p : α → Bool} {s t : List α} :
    s.dropWhile p = t ↔ ∃ front, s = front ++ t ∧ (∀ c ∈ front, p c = true) ∧
      ∀ c ∈ t.head?, p c = false := by
  constructor
  · rintro rfl
    refine ⟨s.takeWhile p, List.takeWhile_append_dropWhile.symm,
      fun c hc => List.mem_takeWhile_imp hc, fun c hc => ?_⟩
    have hhead := List.head?_dropWhile_not p s
    rw [Option.mem_def.1 hc] at hhead
    simpa using hhead
  · rintro ⟨front, rfl, hfront, ht⟩
    rw [List.dropWhile_append_of_pos hfront]
    cases t with
    | nil => rfl
    | cons c t => rw [List.dropWhile_cons_of_neg (by simp [ht c rfl])]

/-- **What is left after trimming** stands between blank ends and has no blank end of its own. -/
theorem trimmed_eq_iff {s t : List Char} :
    trimmed s = t ↔ ∃ front back, s = front ++ (t ++ back) ∧
      (∀ c ∈ front, isBlank c = true) ∧ (∀ c ∈ back, isBlank c = true) ∧
      (∀ c ∈ t.head?, isBlank c = false) ∧ ∀ c ∈ t.getLast?, isBlank c = false := by
  rw [trimmed, List.reverse_eq_iff, dropWhile_eq_iff]
  constructor
  · rintro ⟨back, hs, hback, hlast⟩
    obtain ⟨front, hfront, hblank, hhead⟩ := dropWhile_eq_iff.1 (Eq.refl (s.dropWhile isBlank))
    have hrest : s.dropWhile isBlank = t ++ back.reverse := by
      rw [← List.reverse_inj, hs, List.reverse_append, List.reverse_reverse]
    refine ⟨front, back.reverse, by rw [← hrest]; exact hfront, hblank,
      fun c hc => hback c (List.mem_reverse.1 hc), fun c hc => ?_, by simpa using hlast⟩
    obtain ⟨r, rfl⟩ := List.head?_eq_some_iff.1 hc
    rw [hrest] at hhead
    exact hhead c rfl
  · rintro ⟨front, back, rfl, hfront, hback, hhead, hlast⟩
    have hlast' : ∀ c ∈ t.reverse.head?, isBlank c = false := by simpa using hlast
    have hback' : ∀ c ∈ back.reverse, isBlank c = true := fun c hc => hback c (by simpa using hc)
    cases t with
    | nil =>
      have hall : (front ++ ([] ++ back)).dropWhile isBlank = [] := by
        rw [List.dropWhile_eq_nil_iff]
        exact List.forall_mem_append.2 ⟨hfront, hback⟩
      exact ⟨[], by rw [hall]; rfl, by simp, by simp⟩
    | cons c t =>
      have hrest : (front ++ (c :: t ++ back)).dropWhile isBlank = c :: t ++ back :=
        dropWhile_eq_iff.2 ⟨front, rfl, hfront, hhead⟩
      exact ⟨back.reverse, by rw [hrest, List.reverse_append], hback', hlast'⟩

/-- Blanks at the end are trimmed with the rest. -/
theorem trimmed_append_blank (s : List Char) {back : List Char}
    (hback : ∀ c ∈ back, isBlank c = true) : trimmed (s ++ back) = trimmed s := by
  obtain ⟨front, inner, hs, hfront, hinner, hhead, hlast⟩ := trimmed_eq_iff.1 (Eq.refl (trimmed s))
  refine trimmed_eq_iff.2 ⟨front, inner ++ back, ?_, hfront,
    List.forall_mem_append.2 ⟨hinner, hback⟩, hhead, hlast⟩
  conv => lhs; rw [hs]
  simp only [List.append_assoc]

/-! ## Occurrences -/

section Occurrences

variable {α : Type} {sep s p r : List α} {i j : Nat}

/-- The separator stands in the list from a position on. -/
def OccursAt (sep s : List α) (i : Nat) : Prop :=
  sep <+: s.drop i

/-- Nothing but the whole separator is both a beginning and an end of it. -/
def Unbordered (sep : List α) : Prop :=
  sep ≠ [] ∧ ∀ b, b ≠ [] → b <+: sep → b <:+ sep → b = sep

/-- A separator that does not repeat its first element cannot reach into itself. -/
theorem unbordered_cons {a : α} {t : List α} (h : a ∉ t) : Unbordered (a :: t) := by
  refine ⟨List.cons_ne_nil a t, fun b hne hbegin hend => ?_⟩
  rcases List.suffix_cons_iff.1 hend with heq | hend
  · exact heq
  · obtain ⟨c, b, rfl⟩ := List.exists_cons_of_ne_nil hne
    have hc : c = a := (List.cons_prefix_cons.1 hbegin).1
    exact absurd (hend.subset (hc ▸ List.mem_cons_self)) h

/-- **Two occurrences of such a separator are disjoint.** -/
theorem OccursAt.disjoint (hsep : Unbordered sep) (hi : OccursAt sep s i) (hj : OccursAt sep s j)
    (hij : i < j) : i + sep.length ≤ j := by
  by_contra hlt
  obtain ⟨t, ht⟩ := hi
  -- what the two share ends the first of them and begins the second
  have hrest : sep.drop (j - i) ++ t = s.drop j := by
    rw [← List.drop_append_of_le_length (by omega), ht, List.drop_drop]
    congr 1
    omega
  have hbegin : sep.drop (j - i) <+: sep :=
    List.prefix_of_prefix_length_le ⟨t, hrest⟩ hj (by simp)
  have hall := hsep.2 _ (by simp; omega) hbegin (List.drop_suffix ..)
  have hlength := congrArg List.length hall
  rw [List.length_drop] at hlength
  omega

theorem occursAt_append_iff : OccursAt sep (p ++ s) (p.length + i) ↔ OccursAt sep s i := by
  rw [OccursAt, OccursAt, List.drop_append, List.drop_eq_nil_of_le (by omega), List.nil_append,
    Nat.add_sub_cancel_left]

theorem occursAt_append : OccursAt sep (p ++ (sep ++ r)) p.length := by
  rw [OccursAt, List.drop_left]
  exact List.prefix_append ..

/-- A piece without the separator is passed before the separator behind it comes. -/
theorem OccursAt.length_le (hsep : Unbordered sep) (hp : ¬ sep <:+: p)
    (hi : OccursAt sep (p ++ (sep ++ r)) i) : p.length ≤ i := by
  by_contra hlt
  have hle := hi.disjoint hsep occursAt_append (by omega)
  refine hp ?_
  rw [OccursAt, List.drop_append_of_le_length (by omega)] at hi
  exact (List.prefix_of_prefix_length_le hi (List.prefix_append ..) (by simp; omega)).isInfix.trans
    (List.drop_suffix ..).isInfix

/-- The pieces do not hold the separator, and joined by it they give the list. -/
structure IsCutAt (sep s : List α) (pieces : List (List α)) : Prop where
  ne_nil : pieces ≠ []
  free : ∀ p ∈ pieces, ¬ sep <:+: p
  joined : sep.intercalate pieces = s

theorem intercalate_cons_cons (sep p q : List α) (ps : List (List α)) :
    sep.intercalate (p :: q :: ps) = p ++ (sep ++ sep.intercalate (q :: ps)) := by
  rw [List.intercalate_cons_of_ne_nil (List.cons_ne_nil q ps), List.append_assoc]

/-- A further piece is joined after a separator. -/
theorem intercalate_concat_of_ne_nil (sep q : List α) {ps : List (List α)} (hps : ps ≠ []) :
    sep.intercalate (ps ++ [q]) = sep.intercalate ps ++ (sep ++ q) := by
  induction ps with
  | nil => exact absurd rfl hps
  | cons p ps ih =>
    cases ps with
    | nil =>
      rw [List.singleton_append, intercalate_cons_cons, List.intercalate_singleton,
        List.intercalate_singleton]
    | cons p' ps =>
      rw [List.cons_append, List.cons_append, intercalate_cons_cons, ← List.cons_append,
        ih (List.cons_ne_nil p' ps), intercalate_cons_cons]
      simp only [List.append_assoc]

/-- Joined pieces that are mapped are mapped pieces that are joined. -/
theorem map_intercalate {β : Type} (f : α → β) (sep : List α) (ps : List (List α)) :
    (sep.intercalate ps).map f = (sep.map f).intercalate (ps.map (List.map f)) := by
  induction ps with
  | nil => rfl
  | cons p ps ih =>
    cases ps with
    | nil => simp only [List.map_cons, List.map_nil, List.intercalate_singleton]
    | cons q ps =>
      rw [intercalate_cons_cons, List.map_append, List.map_append, ih]
      exact (intercalate_cons_cons ..).symm

/-- The occurrences of the separator are the places where two pieces are joined. -/
theorem IsCutAt.occursAt_iff (hsep : Unbordered sep) {pieces : List (List α)}
    (h : IsCutAt sep s pieces) :
    OccursAt sep s i ↔
      ∃ k, k + 1 < pieces.length ∧ i = (sep.intercalate (pieces.take (k + 1))).length := by
  obtain ⟨hne, hfree, rfl⟩ := h
  induction pieces generalizing i with
  | nil => exact absurd rfl hne
  | cons p ps ih =>
    obtain ⟨hp, hfree⟩ := List.forall_mem_cons.1 hfree
    cases ps with
    | nil =>
      rw [List.intercalate_singleton]
      constructor
      · intro hi
        exact absurd (hi.isInfix.trans (List.drop_suffix ..).isInfix) hp
      · rintro ⟨k, hk, -⟩
        simp at hk
    | cons q ps =>
      have htake : ∀ k, (sep.intercalate ((p :: q :: ps).take (k + 2))).length =
          p.length + (sep.length + (sep.intercalate ((q :: ps).take (k + 1))).length) := by
        intro k
        rw [List.take_succ_cons, List.take_succ_cons, intercalate_cons_cons, List.length_append,
          List.length_append]
      have hfirst : OccursAt sep (p ++ (sep ++ sep.intercalate (q :: ps))) p.length :=
        occursAt_append
      rw [intercalate_cons_cons]
      constructor
      · intro hi
        rcases Nat.eq_or_lt_of_le (hi.length_le hsep hp) with rfl | hlt
        · exact ⟨0, by simp, by simp⟩
        · obtain ⟨m, rfl⟩ := Nat.exists_eq_add_of_le (hfirst.disjoint hsep hi hlt)
          rw [Nat.add_assoc, occursAt_append_iff, occursAt_append_iff, ih (by simp) hfree] at hi
          obtain ⟨k, hk, rfl⟩ := hi
          exact ⟨k + 1, by simpa using hk, by rw [htake]; omega⟩
      · rintro ⟨k, hk, rfl⟩
        cases k with
        | zero => simpa using hfirst
        | succ k =>
          rw [htake, occursAt_append_iff, occursAt_append_iff, ih (by simp) hfree]
          exact ⟨k, by simpa using hk, rfl⟩

end Occurrences

/-! ## Pieces -/

variable {α : Type} [DecidableEq α] {sep s p r : List α}

theorem splitFrom_eq (n : Nat) (s : List α) : splitFrom sep n s = splitOn sep (s.drop n) := by
  induction s generalizing n with
  | nil => cases n <;> rfl
  | cons a r ih =>
    cases n with
    | zero => rfl
    | succ n => exact ih n

theorem splitOn_append_left (hne : sep ≠ []) (r : List α) :
    splitOn sep (sep ++ r) = [] :: splitOn sep r := by
  obtain ⟨a, t, rfl⟩ := List.exists_cons_of_ne_nil hne
  have hbegin : (a :: t).isPrefixOf (a :: (t ++ r)) = true :=
    List.isPrefixOf_iff_prefix.2 (List.prefix_append (a :: t) r)
  rw [List.cons_append, splitOn, splitFrom, if_pos hbegin, splitFrom_eq]
  simp

theorem splitOn_cons_of_not_begins {a : α} (h : ¬ sep <+: a :: r) :
    splitOn sep (a :: r) = extendFirst a (splitOn sep r) := by
  rw [splitOn, splitFrom, if_neg (mt List.isPrefixOf_iff_prefix.1 h), ← splitOn]

/-- A piece ends where the separator first stands. -/
theorem splitOn_append (hsep : Unbordered sep) (hp : ¬ sep <:+: p) (r : List α) :
    splitOn sep (p ++ (sep ++ r)) = p :: splitOn sep r := by
  induction p with
  | nil => exact splitOn_append_left hsep.1 r
  | cons a p ih =>
    have hnone : ¬ sep <+: a :: (p ++ (sep ++ r)) := fun h =>
      absurd (OccursAt.length_le (i := 0) hsep hp h) (by simp)
    rw [List.infix_cons_iff, not_or] at hp
    rw [List.cons_append, splitOn_cons_of_not_begins hnone, ih hp.2, extendFirst]

theorem prefix_of_splitOn_eq_cons (hne : sep ≠ []) {ps : List (List α)}
    (h : splitOn sep s = p :: ps) : p <+: s := by
  rw [← intercalate_splitOn sep s (List.length_pos_iff.2 hne), h]
  cases ps with
  | nil => exact List.intercalate_singleton ▸ List.prefix_rfl
  | cons q ps => exact intercalate_cons_cons sep p q ps ▸ List.prefix_append ..

theorem not_infix_of_mem_splitOn (hne : sep ≠ []) (hp : p ∈ splitOn sep s) : ¬ sep <:+: p := by
  have hempty : ¬ sep <:+: [] := fun h => hne (List.infix_nil.1 h)
  -- an occurrence in front is taken off as a whole, so the induction is on the length
  induction hn : s.length using Nat.strong_induction_on generalizing s p with
  | _ n ih =>
  subst hn
  by_cases hbegin : sep <+: s
  · obtain ⟨r, rfl⟩ := hbegin
    rw [splitOn_append_left hne, List.mem_cons] at hp
    rcases hp with rfl | hp
    · exact hempty
    · exact ih r.length (by simp [List.length_pos_iff.2 hne]) hp rfl
  · cases s with
    | nil =>
      obtain rfl : p = [] := by simpa [splitOn, splitFrom] using hp
      exact hempty
    | cons a r =>
      have hr : ∀ q ∈ splitOn sep r, ¬ sep <:+: q := fun q hq => ih r.length (by simp) hq rfl
      obtain ⟨q, qs, hq⟩ := List.exists_cons_of_ne_nil (splitFrom_ne_nil sep r 0)
      rw [← splitOn] at hq
      rw [splitOn_cons_of_not_begins hbegin, hq, extendFirst, List.mem_cons] at hp
      rcases hp with rfl | hp
      · have hqr : a :: q <+: a :: r :=
          List.cons_prefix_cons.2 ⟨rfl, prefix_of_splitOn_eq_cons hne hq⟩
        rw [List.infix_cons_iff, not_or]
        exact ⟨fun h => hbegin (h.trans hqr), hr q (by simp [hq])⟩
      · exact hr p (by simp [hq, hp])

/-- **There is one way to cut a list** at a separator that cannot reach into itself. -/
theorem isCutAt_iff (hsep : Unbordered sep) {pieces : List (List α)} :
    IsCutAt sep s pieces ↔ splitOn sep s = pieces := by
  constructor
  · rintro ⟨hne, hfree, rfl⟩
    induction pieces with
    | nil => exact absurd rfl hne
    | cons p ps ih =>
      obtain ⟨hp, hfree⟩ := List.forall_mem_cons.1 hfree
      cases ps with
      | nil =>
        have hnone : occursIn sep p = false := by
          rw [← Bool.not_eq_true, occursIn_iff_isInfix]
          exact hp
        rw [List.intercalate_singleton, splitOn_of_not_occursIn hnone]
      | cons q ps =>
        rw [intercalate_cons_cons, splitOn_append hsep hp, ih (List.cons_ne_nil q ps) hfree]
  · rintro rfl
    exact ⟨splitFrom_ne_nil sep s 0, fun p hp => not_infix_of_mem_splitOn hsep.1 hp,
      intercalate_splitOn sep s (List.length_pos_iff.2 hsep.1)⟩

/-- **The pieces of a text** are those without the separator that, joined by it, give the text. -/
theorem splitOn_singleton_iff {x : α} {pieces : List (List α)} :
    splitOn [x] s = pieces ↔
      pieces ≠ [] ∧ (∀ p ∈ pieces, x ∉ p) ∧ [x].intercalate pieces = s := by
  rw [← isCutAt_iff (unbordered_cons List.not_mem_nil)]
  constructor
  · rintro ⟨hne, hfree, hjoined⟩
    exact ⟨hne, fun p hp hx => hfree p hp ((List.singleton_infix_iff x p).2 hx), hjoined⟩
  · rintro ⟨hne, hfree, hjoined⟩
    exact ⟨hne, fun p hp hx => hfree p hp ((List.singleton_infix_iff x p).1 hx), hjoined⟩

end CommitGate.Text

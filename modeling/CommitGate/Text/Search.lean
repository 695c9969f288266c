/-!
# Substring search, splitting and replacement

Search is over lists of any type with decidable equality, so that the same definitions serve text
and octets. A separator is found leftmost first, and pieces never overlap.

Results:

* `occursIn_iff_isInfix`: a hit is a contiguous occurrence.
* `intercalate_splitOn`: the pieces, joined by the separator, give the list back.
* `splitOn_of_not_occursIn`: a list without the separator is one piece.
-/

namespace CommitGate.Text

variable {α : Type} [DecidableEq α]

/-- `needle` stands somewhere in the list, as a contiguous run. -/
def occursIn (needle : List α) : List α → Bool
  | [] => needle.isEmpty
  | a :: r => needle.isPrefixOf (a :: r) || occursIn needle r

/-- Puts `a` in front of the first piece. -/
def extendFirst (a : α) : List (List α) → List (List α)
  | [] => [[a]]
  | p :: ps => (a :: p) :: ps

/-- The pieces between the separators, after `skip` more elements of a separator already recognised.
-/
def splitFrom (sep : List α) : Nat → List α → List (List α)
  | _, [] => [[]]
  | skip + 1, _ :: r => splitFrom sep skip r
  | 0, a :: r =>
    if sep.isPrefixOf (a :: r) then [] :: splitFrom sep (sep.length - 1) r
    else extendFirst a (splitFrom sep 0 r)

/-- The pieces between the leftmost, pairwise disjoint occurrences of a non-empty separator. -/
def splitOn (sep s : List α) : List (List α) :=
  splitFrom sep 0 s

/-- Every occurrence of `old` replaced by `new`; what `new` brings in is not searched again. -/
def replaceAll (old new s : List α) : List α :=
  new.intercalate (splitOn old s)

/-! ## Occurrences -/

theorem occursIn_iff_isInfix (needle s : List α) : occursIn needle s = true ↔ needle <:+: s := by
  induction s with
  | nil => simp [occursIn, List.isEmpty_iff]
  | cons a r ih =>
    rw [occursIn, Bool.or_eq_true, List.isPrefixOf_iff_prefix, ih, List.infix_cons_iff]

/-! ## Pieces -/

theorem splitFrom_ne_nil (sep s : List α) (n : Nat) : splitFrom sep n s ≠ [] := by
  induction s generalizing n with
  | nil => simp [splitFrom]
  | cons a r ih =>
    cases n with
    | succ n => simpa [splitFrom] using ih n
    | zero =>
      rw [splitFrom]
      split
      · simp
      · cases h : splitFrom sep 0 r <;> simp [extendFirst]

omit [DecidableEq α] in
theorem intercalate_extendFirst (sep : List α) (a : α) {ps : List (List α)} (h : ps ≠ []) :
    sep.intercalate (extendFirst a ps) = a :: sep.intercalate ps := by
  match ps, h with
  | [p], _ => simp [extendFirst, List.intercalate]
  | p :: q :: ps, _ => simp [extendFirst, List.intercalate]

omit [DecidableEq α] in
theorem intercalate_nil_cons (sep : List α) {ps : List (List α)} (h : ps ≠ []) :
    sep.intercalate ([] :: ps) = sep ++ sep.intercalate ps := by
  match ps, h with
  | p :: ps, _ => simp [List.intercalate]

theorem intercalate_splitFrom (sep s : List α) (n : Nat) (h : 0 < sep.length) (hn : n ≤ s.length) :
    sep.intercalate (splitFrom sep n s) = s.drop n := by
  induction s generalizing n with
  | nil => simp_all [splitFrom, List.intercalate]
  | cons a r ih =>
    cases n with
    | succ n => simpa [splitFrom] using ih n (by simpa using hn)
    | zero =>
      rw [splitFrom]
      split
      case isTrue hp =>
        obtain ⟨t, ht⟩ := List.isPrefixOf_iff_prefix.1 hp
        have hlen : sep.length - 1 ≤ r.length := by
          have := congrArg List.length ht
          simp at this; omega
        rw [intercalate_nil_cons sep (splitFrom_ne_nil _ _ _), ih _ hlen]
        have hd : r.drop (sep.length - 1) = t := by
          have : (a :: r).drop sep.length = t := by rw [← ht]; simp
          obtain ⟨m, hm⟩ : ∃ m, sep.length = m + 1 := ⟨sep.length - 1, by omega⟩
          rw [hm] at this ⊢
          simpa using this
        rw [hd]; simpa using ht
      case isFalse =>
        rw [intercalate_extendFirst sep a (splitFrom_ne_nil _ _ _), ih 0 (Nat.zero_le _)]
        simp

theorem intercalate_splitOn (sep s : List α) (h : 0 < sep.length) :
    sep.intercalate (splitOn sep s) = s := by
  simpa [splitOn] using intercalate_splitFrom sep s 0 h (Nat.zero_le _)

theorem splitOn_of_not_occursIn {sep s : List α} (h : occursIn sep s = false) :
    splitOn sep s = [s] := by
  induction s with
  | nil => rfl
  | cons a r ih =>
    rw [occursIn, Bool.or_eq_false_iff] at h
    rw [splitOn, splitFrom, if_neg (by simp [h.1]), ← splitOn, ih h.2, extendFirst]

end CommitGate.Text

import CommitGate.Proofs.Toml.QuotedEnd
import CommitGate.Proofs.Toml.Statement

/-!
# Texts without comments

A comment starts at a `#` that stands in no quoted string, and goes on to the end of its line. Where
a comment was, there is the end of the text now or a character that no comment holds, which is the
end of a line in every text that can be read. So nothing that stood in front of a comment goes on
behind it.

Results:

* `head?_withoutComments`: what stands where a comment was.
* `Inner.span`: runs of blanks, of keys and of words are the same without comments.
* `skipSpace_withoutComments`, `lineEnd?_withoutComments`: blanks and the ends of lines are the same
  without comments.
-/

namespace CommitGate.Toml

/-! ## Texts without comments -/

/-- The text without its comments. -/
def withoutComments : List Char → List Char
  | [] => []
  | c :: s =>
    if c = '#' then withoutComments (s.dropWhile isPlain)
    else
      match _h : readQuoted true (c :: s) with
      | some (_, r) => (c :: s).take ((c :: s).length - r.length) ++ withoutComments r
      | none => c :: withoutComments s
termination_by s => s.length
decreasing_by
  · have := List.length_dropWhile_le isPlain s
    rw [List.length_cons]
    omega
  · exact length_lt_of_readQuoted _h
  · exact Nat.lt_succ_self _

theorem withoutComments_nil : withoutComments [] = [] := by
  rw [withoutComments]

theorem withoutComments_comment (s : List Char) :
    withoutComments ('#' :: s) = withoutComments (s.dropWhile isPlain) := by
  rw [withoutComments, if_pos rfl]

/-- A character that starts neither a comment nor a quoted string. -/
structure Ordinary (c : Char) : Prop where
  comment : c ≠ '#'
  double : c ≠ '"'
  single : c ≠ '\''

theorem Ordinary.readQuoted_eq_none {c : Char} (h : Ordinary c) (long : Bool) (r : List Char) :
    readQuoted long (c :: r) = none :=
  Toml.readQuoted_eq_none long h.double h.single r

theorem Ordinary.unquoted {c : Char} (h : Ordinary c) (r : List Char) : Unquoted (c :: r) :=
  unquoted_cons h.double h.single r

theorem withoutComments_cons {c : Char} (h : Ordinary c) (s : List Char) :
    withoutComments (c :: s) = c :: withoutComments s := by
  have hnone := h.readQuoted_eq_none true s
  rw [withoutComments, if_neg h.comment]
  split
  · next heq =>
    rw [hnone] at heq
    cases heq
  · rfl

theorem withoutComments_quoted {t r w : List Char} (h : readQuoted true (w ++ r) = some (t, r)) :
    withoutComments (w ++ r) = w ++ withoutComments r := by
  obtain ⟨c, w', hc, -, heq, -⟩ := readQuoted_append h
  obtain rfl : w = c :: w' := List.append_cancel_right (heq.trans (List.cons_append ..).symm)
  have hcomment : c ≠ '#' := by rcases hc with rfl | rfl <;> decide
  rw [List.cons_append] at h ⊢
  rw [withoutComments, if_neg hcomment]
  split
  · next heq =>
    rw [h] at heq
    cases heq
    rw [← List.cons_append, List.length_append, Nat.add_sub_cancel, List.take_left]
  · next heq =>
    rw [h] at heq
    cases heq

/-- A character that starts no comment stays. -/
theorem exists_withoutComments_cons {c : Char} (hc : c ≠ '#') (s : List Char) :
    ∃ w, withoutComments (c :: s) = c :: w := by
  cases hread : readQuoted true (c :: s) with
  | some x =>
    obtain ⟨t, r⟩ := x
    obtain ⟨c', w, -, -, heq, -⟩ := readQuoted_append hread
    obtain ⟨rfl, rfl⟩ := List.cons.inj heq
    rw [← List.cons_append] at hread
    exact ⟨w ++ withoutComments r, withoutComments_quoted hread⟩
  | none =>
    rw [withoutComments, if_neg hc]
    split
    · next heq =>
      rw [hread] at heq
      cases heq
    · exact ⟨_, rfl⟩

theorem isPlain_head_dropWhile {s r : List Char} {c : Char} (h : s.dropWhile isPlain = c :: r) :
    isPlain c = false := by
  have hhead := List.head_dropWhile_not isPlain (show s.dropWhile isPlain ≠ [] by simp [h])
  simpa only [h, List.head_cons] using hhead

/-- Where a comment was, there is the end of the text now, or a character that no comment holds. -/
theorem head?_withoutComments {s : List Char} {c : Char}
    (h : (withoutComments s).head? = some c) (hc : isPlain c = true) : s.head? = some c := by
  cases s with
  | nil =>
    rw [withoutComments_nil] at h
    cases h
  | cons d s =>
    by_cases hcomment : d = '#'
    · subst hcomment
      rw [withoutComments_comment] at h
      cases hrest : s.dropWhile isPlain with
      | nil =>
        rw [hrest, withoutComments_nil] at h
        cases h
      | cons e r =>
        have he := isPlain_head_dropWhile hrest
        have hne : e ≠ '#' := by
          rintro rfl
          cases he
        obtain ⟨w, hw⟩ := exists_withoutComments_cons hne r
        rw [hrest, hw] at h
        cases h
        rw [hc] at he
        cases he
    · obtain ⟨w, hw⟩ := exists_withoutComments_cons hcomment s
      rw [hw] at h
      exact h

theorem ne_cons_withoutComments {c : Char} (hc : isPlain c = true) {s : List Char}
    (h : ∀ t, s ≠ c :: t) (t : List Char) : withoutComments s ≠ c :: t := by
  intro ht
  obtain ⟨t', ht'⟩ := List.head?_eq_some_iff.1 (head?_withoutComments (by rw [ht]; rfl) hc)
  exact h t' ht'

theorem beside_withoutComments (r : List Char) : Beside r (withoutComments r) := fun q hq hhead =>
  head?_withoutComments hhead (by rcases hq with rfl | rfl <;> rfl)

/-- Characters that stand in no comment, no quote, and not at the end of a line. -/
structure Inner (p : Char → Bool) : Prop where
  ordinary : ∀ c, p c = true → Ordinary c
  plain : ∀ c, p c = true → isPlain c = true

/-- A run of such characters is the same without comments, and so is what follows it. -/
theorem Inner.span {p : Char → Bool} (hp : Inner p) (s : List Char) :
    (withoutComments s).takeWhile p = s.takeWhile p ∧
      (withoutComments s).dropWhile p = withoutComments (s.dropWhile p) := by
  induction s with
  | nil =>
    rw [List.dropWhile_nil, withoutComments_nil]
    exact ⟨rfl, rfl⟩
  | cons c s ih =>
    by_cases hc : p c = true
    · rw [withoutComments_cons (hp.ordinary c hc), List.takeWhile_cons_of_pos hc,
        List.takeWhile_cons_of_pos hc, List.dropWhile_cons_of_pos hc, List.dropWhile_cons_of_pos hc]
      exact ⟨congrArg (c :: ·) ih.1, ih.2⟩
    · rw [List.takeWhile_cons_of_neg hc, List.dropWhile_cons_of_neg hc]
      cases hw : withoutComments (c :: s) with
      | nil => exact ⟨rfl, rfl⟩
      | cons d w =>
        have hd : ¬ p d = true := by
          intro hd
          have hhead := head?_withoutComments (by rw [hw]; rfl) (hp.plain d hd)
          cases hhead
          exact hc hd
        exact ⟨List.takeWhile_cons_of_neg hd, List.dropWhile_cons_of_neg hd⟩

theorem inner_of_plain {p : Char → Bool} (hplain : ∀ c, p c = true → isPlain c = true)
    (hcomment : p '#' = false) (hdouble : p '"' = false) (hsingle : p '\'' = false) : Inner p := by
  have hne {c d : Char} (hc : p c = true) (hd : p d = false) : c ≠ d := by
    rintro rfl
    rw [hc] at hd
    cases hd
  exact ⟨fun c hc => ⟨hne hc hcomment, hne hc hdouble, hne hc hsingle⟩, hplain⟩

theorem isPlain_of_isAlphanum {c : Char} (h : c.isAlphanum = true) : isPlain c = true := by
  have hbounds {l u : Nat} (h : l ≤ c.toNat ∧ c.toNat ≤ u) (hl : 0x20 ≤ l) (hu : u < 0x7F) :
      isPlain c = true := by
    unfold isPlain
    simp only [Bool.or_eq_true, Bool.and_eq_true, decide_eq_true_eq]
    omega
  rcases Bool.or_eq_true_iff.1 h with halpha | hdigit
  · rcases Bool.or_eq_true_iff.1 halpha with hupper | hlower
    · exact hbounds (l := 65) (u := 90) (of_decide_eq_true hupper) (by decide) (by decide)
    · obtain ⟨hl, hu⟩ := Bool.and_eq_true_iff.1 hlower
      exact hbounds (l := 97) (u := 122) ⟨of_decide_eq_true hl, of_decide_eq_true hu⟩ (by decide)
        (by decide)
  · obtain ⟨hl, hu⟩ := Bool.and_eq_true_iff.1 hdigit
    exact hbounds (l := 48) (u := 57) ⟨of_decide_eq_true hl, of_decide_eq_true hu⟩ (by decide)
      (by decide)
theorem inner_isInlineBlank : Inner isInlineBlank := by
  refine inner_of_plain (fun c hc => ?_) rfl rfl rfl
  unfold isInlineBlank at hc
  simp only [Bool.or_eq_true, decide_eq_true_eq] at hc
  rcases hc with rfl | rfl <;> rfl

theorem inner_isKeyChar : Inner isKeyChar := by
  refine inner_of_plain (fun c hc => ?_) rfl rfl rfl
  unfold isKeyChar at hc
  simp only [Bool.or_eq_true, decide_eq_true_eq] at hc
  rcases hc with (hc | rfl) | rfl
  · exact isPlain_of_isAlphanum hc
  · rfl
  · rfl

theorem inner_isWordChar : Inner isWordChar := by
  refine inner_of_plain (fun c hc => ?_) rfl rfl rfl
  unfold isWordChar at hc
  simp only [Bool.or_eq_true, decide_eq_true_eq, List.mem_cons, List.not_mem_nil, or_false] at hc
  rcases hc with hc | rfl | rfl | rfl | rfl | rfl
  · exact isPlain_of_isAlphanum hc
  all_goals rfl

/-! ## Blanks and the ends of lines -/

theorem skipBlanks_withoutComments (s : List Char) :
    skipBlanks (withoutComments s) = withoutComments (skipBlanks s) :=
  (inner_isInlineBlank.span s).2

theorem length_skipBlanks_le (s : List Char) : (skipBlanks s).length ≤ s.length :=
  List.length_dropWhile_le _ s

theorem after?_eq_some_iff {c : Char} {s r : List Char} : after? c s = some r ↔ s = c :: r := by
  cases s with
  | nil => simp [after?]
  | cons d s => simp [after?]

theorem ordinary_newline : Ordinary '\n' := ⟨by decide, by decide, by decide⟩

theorem ordinary_carriage : Ordinary '\r' := ⟨by decide, by decide, by decide⟩

theorem length_skipSpaceFrom_le {comment : Bool} {s r : List Char}
    (h : skipSpaceFrom comment s = some r) : r.length ≤ s.length := by
  fun_induction skipSpaceFrom comment s with
  | case1 =>
    cases h
    exact Nat.le_refl _
  | case2 comment s ih => exact Nat.le_succ_of_le (ih h)
  | case3 comment s ih => exact Nat.le_succ_of_le (Nat.le_succ_of_le (ih h))
  | case4 c s _ _ _ ih => exact Nat.le_succ_of_le (ih h)
  | case5 => cases h
  | case6 comment c s _ _ _ _ ih => exact Nat.le_succ_of_le (ih h)
  | case7 comment s _ _ _ _ ih => exact Nat.le_succ_of_le (ih h)
  | case8 =>
    cases h
    exact Nat.le_refl _

theorem skipSpaceFrom_blank {c : Char} (h : isInlineBlank c = true) (s : List Char) :
    skipSpaceFrom false (c :: s) = skipSpaceFrom false s := by
  unfold isInlineBlank at h
  simp only [Bool.or_eq_true, decide_eq_true_eq] at h
  rcases h with rfl | rfl <;> rfl

/-- What follows blanks, newlines and comments is the same without comments. A carriage return would
be skipped when a comment stood between it and a newline. -/
theorem skipSpaceFrom_withoutComments {comment : Bool} {s r : List Char}
    (h : skipSpaceFrom comment s = some r) (hr : r.head? ≠ some '\r') :
    skipSpaceFrom false (withoutComments (if comment then s.dropWhile isPlain else s)) =
      some (withoutComments r) := by
  fun_induction skipSpaceFrom comment s with
  | case1 comment =>
    cases h
    rw [List.dropWhile_nil, ite_self, withoutComments_nil]
    rfl
  | case2 comment s ih =>
    have hstays : (if comment then ('\n' :: s).dropWhile isPlain else '\n' :: s) = '\n' :: s := by
      cases comment <;> rfl
    rw [hstays, withoutComments_cons ordinary_newline]
    exact ih h
  | case3 comment s ih =>
    have hstays : (if comment then ('\r' :: '\n' :: s).dropWhile isPlain else '\r' :: '\n' :: s) =
        '\r' :: '\n' :: s := by
      cases comment <;> rfl
    rw [hstays, withoutComments_cons ordinary_carriage, withoutComments_cons ordinary_newline]
    exact ih h
  | case4 c s _ _ hplain ih =>
    rw [if_pos rfl, List.dropWhile_cons_of_pos hplain]
    exact ih h
  | case5 => cases h
  | case6 comment c s _ _ hcomment hblank ih =>
    rw [if_neg hcomment, withoutComments_cons (inner_isInlineBlank.ordinary c hblank),
      skipSpaceFrom_blank hblank]
    exact ih h
  | case7 comment s hcomment _ _ _ ih =>
    rw [if_neg hcomment, withoutComments_comment]
    exact ih h
  | case8 comment c s hnewline _ hcomment hblank hsharp =>
    cases h
    rw [if_neg hcomment]
    obtain ⟨w, hw⟩ := exists_withoutComments_cons hsharp s
    rw [hw]
    exact skipSpaceFrom_cons (by simpa using hblank) hnewline
      (fun hc => hr (congrArg some hc)) hsharp w

theorem skipSpace_withoutComments {s r : List Char} (h : skipSpace s = some r)
    (hr : r.head? ≠ some '\r') : skipSpace (withoutComments s) = some (withoutComments r) :=
  skipSpaceFrom_withoutComments h hr

/-- The end of the text or of its line is where it was. -/
theorem lineEnd_withoutComments {s r : List Char}
    (h : (match s with | [] => some [] | s => newline? s) = some r) :
    (match skipComment (withoutComments s) with | [] => some [] | s => newline? s) =
      some (withoutComments r) := by
  cases s with
  | nil =>
    cases h
    rw [withoutComments_nil]
    rfl
  | cons c s =>
    have h : newline? (c :: s) = some r := h
    unfold newline? at h
    split at h
    · next heq =>
      cases heq
      cases h
      rw [withoutComments_cons ordinary_newline]
      rfl
    · next heq =>
      cases heq
      cases h
      rw [withoutComments_cons ordinary_carriage, withoutComments_cons ordinary_newline]
      rfl
    · cases h

theorem lineEnd?_withoutComments {s r : List Char} (h : lineEnd? s = some r) :
    lineEnd? (withoutComments s) = some (withoutComments r) := by
  unfold lineEnd? at h ⊢
  rw [skipBlanks_withoutComments]
  cases hs : skipBlanks s with
  | nil =>
    rw [hs] at h
    exact lineEnd_withoutComments h
  | cons c t =>
    rw [hs] at h
    by_cases hc : c = '#'
    · subst hc
      rw [withoutComments_comment]
      exact lineEnd_withoutComments h
    · have hkeep : skipComment (c :: t) = c :: t := by
        unfold skipComment
        split
        · next heq =>
          cases heq
          exact absurd rfl hc
        · rfl
      rw [hkeep] at h
      exact lineEnd_withoutComments h

theorem length_skipComment_le (s : List Char) : (skipComment s).length ≤ s.length := by
  unfold skipComment
  split
  · exact Nat.le_succ_of_le (List.length_dropWhile_le _ _)
  · exact Nat.le_refl _

theorem length_newline?_lt {s r : List Char} (h : newline? s = some r) : r.length < s.length := by
  unfold newline? at h
  split at h
  · cases h
    exact Nat.lt_succ_self _
  · cases h
    exact Nat.lt_succ_of_lt (Nat.lt_succ_self _)
  · cases h

/-- Only an empty line at the end of the text is no shorter than what follows it. -/
theorem length_lineEnd? {s r : List Char} (h : lineEnd? s = some r) :
    r.length < s.length ∨ s = [] ∧ r = [] := by
  have hle := (length_skipComment_le (skipBlanks s)).trans (length_skipBlanks_le s)
  unfold lineEnd? at h
  split at h
  · cases h
    cases s with
    | nil => exact .inr ⟨rfl, rfl⟩
    | cons c s => exact .inl (Nat.zero_lt_succ _)
  · exact .inl ((length_newline?_lt h).trans_le hle)

end CommitGate.Toml

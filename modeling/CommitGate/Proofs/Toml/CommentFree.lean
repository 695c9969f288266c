import CommitGate.Proofs.Toml.Comments
import CommitGate.Toml.Document
import Mathlib.Data.List.DropRight

/-!
# Comments say nothing

Each reader takes from a text without comments what it takes from the text itself, and leaves what
the text leaves, without its comments. It also takes something, so that the shorter text has enough
fuel. This goes from the readers of keys and scalars to that of values, by induction on the depth,
and from there to the statements of a text.

Results:

* `readValue_withoutComments`: a value is the same without comments.
* `readStatements_withoutComments`, `parse?_withoutComments`: a text that can be read says the same
  without comments, and describes the same document.
-/

namespace CommitGate.Toml

/-! ## Keys -/

/-- The reader takes from a text without comments what it takes from the text, and it takes
something. -/
def Overlooks {α : Type} (read : List Char → Option (α × List Char)) : Prop :=
  ∀ s x r, read s = some (x, r) →
    read (withoutComments s) = some (x, withoutComments r) ∧
      (withoutComments r).length < (withoutComments s).length

theorem Unquoted.withoutComments {r : List Char} (h : Unquoted r) :
    Unquoted (Toml.withoutComments r) :=
  ⟨fun hhead => h.double (head?_withoutComments hhead rfl),
    fun hhead => h.single (head?_withoutComments hhead rfl)⟩

theorem overlooks_readQuoted : Overlooks (readQuoted true) := by
  intro s t r h
  obtain ⟨c, w, -, hw, rfl, hsame⟩ := readQuoted_append h
  rw [← List.cons_append] at h ⊢
  rw [withoutComments_quoted h]
  refine ⟨hsame _ (beside_withoutComments r), ?_⟩
  rw [List.length_append, List.length_cons]
  omega

/-- A quoted key, behind which no quote stands. -/
theorem readQuoted_false_withoutComments {s t r : List Char} (h : readQuoted false s = some (t, r))
    (hr : Unquoted r) :
    readQuoted false (withoutComments s) = some (t, withoutComments r) ∧
      (withoutComments r).length < (withoutComments s).length := by
  have hfenced : ¬ Fenced s := by
    rintro ⟨q, u, rfl | rfl, rfl⟩
    · cases h
      exact hr.double rfl
    · cases h
      exact hr.single rfl
  rw [readQuoted_of_not_fenced hfenced] at h
  obtain ⟨hread, hlength⟩ := overlooks_readQuoted s t r h
  obtain ⟨c, w, -, hw, rfl, -⟩ := readQuoted_append h
  refine ⟨?_, hlength⟩
  rw [← List.cons_append] at h hfenced hread ⊢
  rw [withoutComments_quoted h] at hread ⊢
  rw [readQuoted_of_not_fenced, hread]
  refine fun hfenced' => hfenced (fenced_of_append ?_ (beside_withoutComments r) hfenced')
  rw [List.length_cons]
  exact Nat.succ_le_succ (List.length_pos_iff.2 hw)

theorem readPart_withoutComments {s r : List Char} {k : String} (h : readPart s = some (k, r))
    (hr : Unquoted r) :
    readPart (withoutComments s) = some (k, withoutComments r) ∧
      (withoutComments r).length < (withoutComments s).length := by
  unfold readPart at h ⊢
  split at h
  · next t r' hread =>
    cases h
    obtain ⟨hread', hlength⟩ := readQuoted_false_withoutComments hread hr
    rw [hread']
    exact ⟨rfl, hlength⟩
  · split at h
    · cases h
    · next hkey =>
      cases h
      obtain ⟨htake, hdrop⟩ := inner_isKeyChar.span s
      have hnone : readQuoted false (withoutComments s) = none := by
        cases s with
        | nil => exact absurd rfl hkey
        | cons c s =>
          have hc : isKeyChar c = true := by
            by_contra hc
            exact hkey (List.takeWhile_cons_of_neg hc)
          have hordinary := inner_isKeyChar.ordinary c hc
          rw [withoutComments_cons hordinary]
          exact hordinary.readQuoted_eq_none false _
      rw [hnone, htake, ← hdrop]
      refine ⟨if_neg hkey, ?_⟩
      have hlength := congrArg List.length
        (List.takeWhile_append_dropWhile (p := isKeyChar) (l := withoutComments s))
      rw [List.length_append, htake] at hlength
      have := List.length_pos_iff.2 hkey
      omega

theorem unquoted_of_skipBlanks {s : List Char} (h : Unquoted (skipBlanks s)) : Unquoted s := by
  cases s with
  | nil => exact h
  | cons c s =>
    by_cases hc : isInlineBlank c = true
    · exact (inner_isInlineBlank.ordinary c hc).unquoted s
    · rwa [skipBlanks_cons (by simpa using hc)] at h

theorem readPath_withoutComments {parts : Nat} {s r : List Char} {path : List String}
    (h : readPath parts s = some (path, r)) (hr : Unquoted r) :
    readPath parts (withoutComments s) = some (path, withoutComments r) ∧
      (withoutComments r).length < (withoutComments s).length := by
  induction parts generalizing s path with
  | zero => cases h
  | succ parts ih =>
    unfold readPath at h ⊢
    simp only [Option.bind_eq_bind, Option.bind_eq_some_iff] at h
    obtain ⟨⟨k, r'⟩, hpart, h⟩ := h
    have hbefore := length_skipBlanks_le (withoutComments s)
    rw [skipBlanks_withoutComments] at hbefore ⊢
    have hafter := length_skipBlanks_le (withoutComments r')
    rw [skipBlanks_withoutComments] at hafter
    split at h
    · next r₁ hpoint =>
      simp only [Option.bind_eq_some_iff] at h
      obtain ⟨⟨ks, r₂⟩, hrest, heq⟩ := h
      cases heq
      have hordinary : Ordinary '.' := ⟨by decide, by decide, by decide⟩
      have hunquoted : Unquoted r' := unquoted_of_skipBlanks (by
        rw [hpoint]
        exact hordinary.unquoted r₁)
      obtain ⟨hpart', hlength⟩ := readPart_withoutComments hpart hunquoted
      obtain ⟨hrest', hlength'⟩ := ih hrest
      have hlength' : (withoutComments r₂).length < (withoutComments r₁).length := hlength'
      rw [hpoint, withoutComments_cons hordinary] at hafter
      rw [hpart']
      simp only [Option.bind_eq_bind, Option.bind_some, skipBlanks_withoutComments, hpoint,
        withoutComments_cons hordinary, hrest', true_and]
      rw [List.length_cons] at hafter
      omega
    · next hpoint =>
      cases h
      obtain ⟨hpart', hlength⟩ := readPart_withoutComments hpart (unquoted_of_skipBlanks hr)
      rw [hpart']
      simp only [Option.bind_eq_bind, Option.bind_some, skipBlanks_withoutComments]
      split
      · next r₁ hpoint' => exact absurd hpoint' (ne_cons_withoutComments rfl hpoint r₁)
      · exact ⟨rfl, by omega⟩

/-- A key up to the character behind it. -/
theorem readPath_upTo {parts : Nat} {c : Char} (hc : Ordinary c) {s r r' : List Char}
    {path : List String} (h : readPath parts s = some (path, r)) (hafter : after? c r = some r') :
    readPath parts (withoutComments s) = some (path, c :: withoutComments r') ∧
      (withoutComments r').length < (withoutComments s).length := by
  obtain rfl : r = c :: r' := after?_eq_some_iff.1 hafter
  obtain ⟨hread, hlength⟩ := readPath_withoutComments h (hc.unquoted r')
  rw [withoutComments_cons hc] at hread hlength
  exact ⟨hread, (Nat.lt_succ_self _).trans hlength⟩

/-! ## Scalars -/

/-- A bare value starts with a character of a word. -/
theorem exists_cons_of_readBare {s r : List Char} {b : Bare} (h : readBare s = some (b, r)) :
    ∃ c t, s = c :: t ∧ isWordChar c = true := by
  have hword : s.takeWhile isWordChar ≠ [] := by
    intro hnil
    unfold readBare at h
    simp only [hnil] at h
    split at h
    · split at h
      · next hdate => cases hdate.1
      · cases h
    · cases h
  cases s with
  | nil => exact absurd rfl hword
  | cons c t =>
    refine ⟨c, t, rfl, ?_⟩
    by_contra hc
    exact hword (List.takeWhile_cons_of_neg hc)

/-- A blank and a digit go on with a date. -/
def GoesOn (word rest : List Char) : Prop :=
  ∃ c r, rest = ' ' :: c :: r ∧ afterDate? word = some [] ∧ c.isDigit = true

theorem readBare_of_goesOn {s r : List Char} {c : Char} (h : s.dropWhile isWordChar = ' ' :: c :: r)
    (hdate : afterDate? (s.takeWhile isWordChar) = some []) (hc : c.isDigit = true) :
    readBare s =
      let whole := s.takeWhile isWordChar ++ ' ' :: (c :: r).takeWhile isWordChar
      if isDateTime [' '] whole then some (.moment whole, (c :: r).dropWhile isWordChar)
      else none := by
  unfold readBare
  simp only [h]
  exact if_pos ⟨hdate, hc⟩

theorem readBare_of_not_goesOn {s : List Char}
    (h : ¬ GoesOn (s.takeWhile isWordChar) (s.dropWhile isWordChar)) :
    readBare s = (Bare.ofWord? (s.takeWhile isWordChar)).map (·, s.dropWhile isWordChar) := by
  unfold readBare
  simp only
  split
  · next c r hrest =>
    rw [hrest]
    exact if_neg fun hdate => h ⟨c, r, hrest, hdate⟩
  · rfl

theorem not_goesOn_withoutComments {word rest : List Char} (h : ¬ GoesOn word rest) :
    ¬ GoesOn word (withoutComments rest) := by
  rintro ⟨c, r, hrest, hdate, hc⟩
  have hblank : Ordinary ' ' := ⟨by decide, by decide, by decide⟩
  obtain ⟨t, rfl⟩ := List.head?_eq_some_iff.1
    (head?_withoutComments (c := ' ') (by rw [hrest]; rfl) rfl)
  rw [withoutComments_cons hblank, List.cons.injEq] at hrest
  have hword : isWordChar c = true := by simp [isWordChar, Char.isAlphanum, hc]
  obtain ⟨t', rfl⟩ := List.head?_eq_some_iff.1
    (head?_withoutComments (by rw [hrest.2]; rfl) (inner_isWordChar.plain c hword))
  exact h ⟨c, t', rfl, hdate, hc⟩

theorem overlooks_readBare : Overlooks readBare := by
  intro s b r h
  obtain ⟨htake, hdrop⟩ := inner_isWordChar.span s
  have hlength :
      (withoutComments (s.dropWhile isWordChar)).length < (withoutComments s).length := by
    obtain ⟨c, t, rfl, hc⟩ := exists_cons_of_readBare h
    rw [List.dropWhile_cons_of_pos hc, withoutComments_cons (inner_isWordChar.ordinary c hc),
      ← (inner_isWordChar.span t).2]
    exact Nat.lt_succ_of_le (List.length_dropWhile_le _ _)
  by_cases hgoes : GoesOn (s.takeWhile isWordChar) (s.dropWhile isWordChar)
  · obtain ⟨c, t, hrest, hdate, hc⟩ := hgoes
    have hblank : Ordinary ' ' := ⟨by decide, by decide, by decide⟩
    have hword : isWordChar c = true := by simp [isWordChar, Char.isAlphanum, hc]
    have hcons := withoutComments_cons (inner_isWordChar.ordinary c hword) t
    obtain ⟨htake', hdrop'⟩ := inner_isWordChar.span (c :: t)
    rw [hcons] at htake' hdrop'
    rw [readBare_of_goesOn hrest hdate hc] at h
    rw [hrest, withoutComments_cons hblank, hcons] at hdrop hlength
    rw [readBare_of_goesOn hdrop (by rw [htake, hdate]) hc, htake, htake', hdrop']
    simp only at h ⊢
    split at h
    · next hmoment =>
      cases h
      rw [if_pos hmoment]
      refine ⟨rfl, ?_⟩
      rw [← hdrop']
      have := List.length_dropWhile_le isWordChar (c :: withoutComments t)
      rw [List.length_cons] at hlength
      omega
    · cases h
  · rw [readBare_of_not_goesOn hgoes, Option.map_eq_some_iff] at h
    obtain ⟨b', hb, heq⟩ := h
    cases heq
    have hgoes' := not_goesOn_withoutComments hgoes
    rw [← hdrop, ← htake] at hgoes'
    rw [readBare_of_not_goesOn hgoes', htake, hdrop, hb]
    exact ⟨rfl, hlength⟩

theorem overlooks_readScalar : Overlooks readScalar := by
  intro s v r h
  unfold readScalar at h ⊢
  split at h
  · next t r' hread =>
    cases h
    obtain ⟨hread', hlength⟩ := overlooks_readQuoted s t r hread
    rw [hread']
    exact ⟨rfl, hlength⟩
  · next hnone =>
    cases hbare : readBare s with
    | none =>
      rw [hbare] at h
      cases h
    | some x =>
      obtain ⟨b, r'⟩ := x
      obtain ⟨hbare', hlength⟩ := overlooks_readBare s b r' hbare
      obtain ⟨c, t, rfl, hc⟩ := exists_cons_of_readBare hbare
      have hordinary := inner_isWordChar.ordinary c hc
      have hnone' : readQuoted true (withoutComments (c :: t)) = none := by
        rw [withoutComments_cons hordinary]
        exact hordinary.readQuoted_eq_none true _
      rw [hnone', hbare']
      rw [hbare] at h
      cases b <;> cases h <;> exact ⟨rfl, hlength⟩

/-! ## Arrays and inline tables -/

section Values

variable {readItem : List Char → Option (Value × List Char)}

theorem readItems_next {fuel : Nat} {s s' r r' : List Char} {v : Value} (h : skipSpace s = some s')
    (hend : ∀ t, s' ≠ ']' :: t) (hitem : readItem s' = some (v, r)) :
    skipSpace r = some r' → readItems readItem (fuel + 1) s =
      match r' with
      | ',' :: r => (readItems readItem fuel r).bind fun x => some (v :: x.1, x.2)
      | ']' :: r => some ([v], r)
      | _ => none := by
  intro hspace
  rw [readItems, h]
  simp only [Option.bind_eq_bind, Option.bind_some, hitem]
  rw [hspace]
  rfl

/-- A character that stands behind blanks, newlines and comments. -/
theorem skipSpace_upTo {c : Char} (hc : Ordinary c) (hcarriage : c ≠ '\r') {s r : List Char}
    (h : skipSpace s = some (c :: r)) :
    skipSpace (withoutComments s) = some (c :: withoutComments r) ∧
      (withoutComments r).length < (withoutComments s).length := by
  have hspace := skipSpace_withoutComments h fun hhead => hcarriage (Option.some.inj hhead)
  rw [withoutComments_cons hc] at hspace
  exact ⟨hspace, (Nat.lt_succ_self _).trans_le (length_skipSpaceFrom_le hspace)⟩

/-- An item of an array behind blanks, newlines and comments. A reader that takes no carriage return
takes no item where only a comment stood between a carriage return and a newline. -/
theorem item_withoutComments (hread : Overlooks readItem)
    (hcarriage : ∀ r, readItem ('\r' :: r) = none) {s s' r : List Char} {v : Value}
    (hspace : skipSpace s = some s') (hitem : readItem s' = some (v, r)) :
    skipSpace (withoutComments s) = some (withoutComments s') ∧
      readItem (withoutComments s') = some (v, withoutComments r) ∧
      (withoutComments r).length < (withoutComments s).length := by
  have hspace' := skipSpace_withoutComments hspace fun hhead => by
    obtain ⟨t, rfl⟩ := List.head?_eq_some_iff.1 hhead
    rw [hcarriage] at hitem
    cases hitem
  obtain ⟨hitem', hlength⟩ := hread s' v r hitem
  exact ⟨hspace', hitem', hlength.trans_le (length_skipSpaceFrom_le hspace')⟩

/-- An array is the same without comments. -/
theorem readItems_withoutComments (hread : Overlooks readItem)
    (hcarriage : ∀ r, readItem ('\r' :: r) = none) {fuel fuel' : Nat} {s r : List Char}
    {vs : List Value} (h : readItems readItem fuel s = some (vs, r))
    (hfuel : (withoutComments s).length < fuel') :
    readItems readItem fuel' (withoutComments s) = some (vs, withoutComments r) ∧
      (withoutComments r).length < (withoutComments s).length := by
  have hbracket : Ordinary ']' := ⟨by decide, by decide, by decide⟩
  have hcomma : Ordinary ',' := ⟨by decide, by decide, by decide⟩
  induction fuel generalizing fuel' s vs with
  | zero => cases h
  | succ fuel ih =>
    obtain ⟨fuel', rfl⟩ : ∃ n, fuel' = n + 1 := ⟨fuel' - 1, by omega⟩
    unfold readItems at h
    simp only [Option.bind_eq_bind, Option.bind_eq_some_iff] at h
    obtain ⟨s', hspace, h⟩ := h
    split at h
    · cases h
      obtain ⟨hspace', hlength⟩ := skipSpace_upTo hbracket (by decide) hspace
      exact ⟨readItems_end hspace', hlength⟩
    · next hend =>
      simp only [Option.bind_eq_some_iff] at h
      obtain ⟨⟨v, r'⟩, hitem, r'', hspace₂, h⟩ := h
      dsimp only at hspace₂ h
      obtain ⟨hspace', hitem', hlength⟩ := item_withoutComments hread hcarriage hspace hitem
      have hend' := ne_cons_withoutComments rfl hend
      split at h
      · next r₁ =>
        simp only [Option.bind_eq_some_iff] at h
        obtain ⟨⟨vs', r₂⟩, hrest, heq⟩ := h
        cases heq
        obtain ⟨hspace₂', hlength₂⟩ := skipSpace_upTo hcomma (by decide) hspace₂
        have hfuel' : (withoutComments r₁).length < fuel' := by omega
        obtain ⟨hrest', hlength₃⟩ := ih hrest hfuel'
        refine ⟨(readItems_next hspace' hend' hitem' hspace₂').trans ?_,
          hlength₃.trans (hlength₂.trans hlength)⟩
        show (readItems readItem fuel' (withoutComments r₁)).bind _ = _
        rw [hrest']
        rfl
      · cases h
        obtain ⟨hspace₂', hlength₂⟩ := skipSpace_upTo hbracket (by decide) hspace₂
        exact ⟨readItems_next hspace' hend' hitem' hspace₂', hlength₂.trans hlength⟩
      · cases h

theorem overlooks_readPair (hread : Overlooks readItem) : Overlooks (readPair readItem) := by
  intro s x r h
  unfold readPair at h ⊢
  simp only [Option.bind_eq_bind, Option.bind_eq_some_iff] at h
  obtain ⟨⟨path, r₁⟩, hpath, r₂, hafter, ⟨v, r₃⟩, hitem, heq⟩ := h
  cases heq
  obtain ⟨hpath', hlength₁⟩ := readPath_upTo ⟨by decide, by decide, by decide⟩ hpath hafter
  obtain ⟨hitem', hlength₂⟩ := hread _ v r₃ hitem
  replace hlength₂ : (withoutComments r₃).length < (withoutComments (skipBlanks r₂)).length :=
    hlength₂
  have hblanks₂ := length_skipBlanks_le (withoutComments r₂)
  have hblanks₃ := length_skipBlanks_le (withoutComments r₃)
  rw [skipBlanks_withoutComments] at hblanks₂ hblanks₃
  have hafter' : after? '=' ('=' :: withoutComments r₂) = some (withoutComments r₂) := rfl
  rw [hpath']
  simp only [Option.bind_eq_bind, Option.bind_some, hafter', skipBlanks_withoutComments, hitem',
    true_and]
  omega

theorem readPairs_withoutComments (hread : Overlooks readItem) {fuel fuel' : Nat}
    {es es' : Entries} {s r : List Char} (h : readPairs readItem fuel es s = some (es', r))
    (hfuel : (withoutComments s).length < fuel') :
    readPairs readItem fuel' es (withoutComments s) = some (es', withoutComments r) ∧
      (withoutComments r).length < (withoutComments s).length := by
  have hcomma : Ordinary ',' := ⟨by decide, by decide, by decide⟩
  have hbrace : Ordinary '\x7d' := ⟨by decide, by decide, by decide⟩
  induction fuel generalizing fuel' s es with
  | zero => cases h
  | succ fuel ih =>
    obtain ⟨fuel', rfl⟩ : ∃ n, fuel' = n + 1 := ⟨fuel' - 1, by omega⟩
    unfold readPairs at h ⊢
    simp only [Option.bind_eq_bind, Option.bind_eq_some_iff] at h
    obtain ⟨⟨⟨path, v⟩, r₁⟩, hpair, es₁, hassign, h⟩ := h
    dsimp only at hassign h
    obtain ⟨hpair', hlength⟩ := overlooks_readPair hread _ _ _ hpair
    replace hlength : (withoutComments r₁).length < (withoutComments s).length := hlength
    rw [hpair']
    simp only [Option.bind_eq_bind, Option.bind_some, hassign]
    split at h
    · next r₂ =>
      rw [withoutComments_cons hcomma] at hlength ⊢
      rw [List.length_cons] at hlength
      have hfuel' : (withoutComments r₂).length < fuel' := by omega
      obtain ⟨hrest, hlength'⟩ := ih h hfuel'
      exact ⟨hrest, by omega⟩
    · cases h
      rw [withoutComments_cons hbrace] at hlength ⊢
      rw [List.length_cons] at hlength
      exact ⟨rfl, by omega⟩
    · cases h

end Values

/-- A reader of values takes no carriage return. -/
theorem readValue_carriage (depth : Nat) (r : List Char) : readValue depth ('\r' :: r) = none := by
  rw [readValue_scalar depth (by decide) (by decide)]
  unfold readScalar
  rw [ordinary_carriage.readQuoted_eq_none]
  cases hbare : readBare ('\r' :: r) with
  | none => rfl
  | some x =>
    obtain ⟨c, t, heq, hc⟩ := exists_cons_of_readBare hbare
    cases heq
    cases hc

theorem readValue_brace (depth : Nat) (s : List Char) :
    readValue (depth + 1) ('\x7b' :: s) =
      match skipBlanks s with
      | '\x7d' :: r => some (.table .inline [], r)
      | r => (readPairs (readValue depth) (r.length + 1) [] r).bind
        fun x => some (.table .inline x.1, x.2) := rfl

theorem readValue_of_head? (depth : Nat) {s : List Char} (hbracket : s.head? ≠ some '[')
    (hbrace : s.head? ≠ some '\x7b') : readValue depth s = readScalar s := by
  cases s with
  | nil => cases depth <;> rfl
  | cons c s =>
    exact readValue_scalar depth (fun h => hbracket (congrArg some h))
      (fun h => hbrace (congrArg some h)) s

/-- An inline table is the same without comments. -/
theorem readValue_brace_withoutComments {depth : Nat} (hread : Overlooks (readValue depth))
    {s r : List Char} {v : Value} (h : readValue (depth + 1) ('\x7b' :: s) = some (v, r)) :
    readValue (depth + 1) ('\x7b' :: withoutComments s) = some (v, withoutComments r) ∧
      (withoutComments r).length < (withoutComments s).length := by
  have hblanks := length_skipBlanks_le (withoutComments s)
  rw [readValue_brace] at h ⊢
  rw [skipBlanks_withoutComments] at hblanks ⊢
  split at h
  · next r₁ hempty =>
    cases h
    have hclose : Ordinary '\x7d' := ⟨by decide, by decide, by decide⟩
    rw [hempty, withoutComments_cons hclose] at hblanks ⊢
    exact ⟨rfl, (Nat.lt_succ_self _).trans_le hblanks⟩
  · next hpairs =>
    simp only [Option.bind_eq_some_iff] at h
    obtain ⟨⟨es, r₁⟩, hes, heq⟩ := h
    cases heq
    obtain ⟨hes', hlength⟩ := readPairs_withoutComments hread hes (Nat.lt_succ_self _)
    split
    · next r₂ hempty => exact absurd hempty (ne_cons_withoutComments rfl hpairs r₂)
    · rw [hes']
      exact ⟨rfl, hlength.trans_le hblanks⟩

/-- **A value is the same without comments.** -/
theorem readValue_withoutComments (depth : Nat) : Overlooks (readValue depth) := by
  have hbracket : Ordinary '[' := ⟨by decide, by decide, by decide⟩
  have hbrace : Ordinary '\x7b' := ⟨by decide, by decide, by decide⟩
  induction depth with
  | zero => exact overlooks_readScalar
  | succ depth ih =>
    intro s v r h
    by_cases hopen : s.head? = some '['
    · obtain ⟨s, rfl⟩ := List.head?_eq_some_iff.1 hopen
      obtain ⟨⟨vs, r'⟩, hitems, heq⟩ := Option.bind_eq_some_iff.1
        (show (readItems (readValue depth) (s.length + 1) s).bind
          (fun x => some (Value.array x.1 false, x.2)) = some (v, r) from h)
      cases heq
      obtain ⟨hitems', hlength⟩ :=
        readItems_withoutComments ih (readValue_carriage depth) hitems (Nat.lt_succ_self _)
      rw [withoutComments_cons hbracket]
      refine ⟨?_, Nat.lt_succ_of_lt hlength⟩
      show (readItems (readValue depth) _ _).bind _ = _
      rw [hitems']
      rfl
    · by_cases hopen' : s.head? = some '\x7b'
      · obtain ⟨s, rfl⟩ := List.head?_eq_some_iff.1 hopen'
        obtain ⟨hread, hlength⟩ := readValue_brace_withoutComments ih h
        rw [withoutComments_cons hbrace]
        exact ⟨hread, Nat.lt_succ_of_lt hlength⟩
      · rw [readValue_of_head? _ hopen hopen'] at h
        rw [readValue_of_head? _ (fun hhead => hopen (head?_withoutComments hhead rfl))
          (fun hhead => hopen' (head?_withoutComments hhead rfl))]
        exact overlooks_readScalar s v r h

/-! ## Statements -/

theorem readStatement_header {s : List Char} (h : ∀ t, s ≠ '[' :: t) :
    readStatement ('[' :: s) = (readPath maxDepth s).bind fun x =>
      (after? ']' x.2).bind fun r => (lineEnd? r).bind fun r => some (.table x.1, r) := by
  unfold readStatement
  split
  · next t heq =>
    cases heq
    exact absurd rfl (h t)
  · next heq =>
    cases heq
    rfl
  · next hno => exact absurd rfl (hno s)

theorem readStatement_key {s : List Char} (h : ∀ t, s ≠ '[' :: t) :
    readStatement s = (readPair (readValue maxDepth) s).bind fun x =>
      (lineEnd? x.2).bind fun r => some (.pair x.1.1 x.1.2, r) := by
  unfold readStatement
  split
  · next t => exact absurd rfl (h ('[' :: t))
  · next t _ => exact absurd rfl (h t)
  · rfl

/-- The end of a line, and no more characters than before. -/
theorem overlooks_lineEnd? {s r : List Char} (h : lineEnd? s = some r) :
    lineEnd? (withoutComments s) = some (withoutComments r) ∧
      (withoutComments r).length ≤ (withoutComments s).length := by
  have hend := lineEnd?_withoutComments h
  refine ⟨hend, ?_⟩
  rcases length_lineEnd? hend with hlt | ⟨-, hnil⟩
  · exact Nat.le_of_lt hlt
  · rw [hnil]
    exact Nat.zero_le _

theorem overlooks_readStatement : Overlooks readStatement := by
  intro s st r h
  have hopen : Ordinary '[' := ⟨by decide, by decide, by decide⟩
  have hclose : Ordinary ']' := ⟨by decide, by decide, by decide⟩
  have hafter (t : List Char) : after? ']' (']' :: t) = some t := rfl
  unfold readStatement at h
  split at h
  · next t =>
    simp only [Option.bind_eq_bind, Option.bind_eq_some_iff] at h
    obtain ⟨⟨path, r₁⟩, hpath, r₂, hafter₁, r₃, hafter₂, r₄, hline, heq⟩ := h
    cases heq
    obtain rfl : r₂ = ']' :: r₃ := after?_eq_some_iff.1 hafter₂
    obtain ⟨hpath', hlength⟩ := readPath_upTo hclose hpath hafter₁
    obtain ⟨hline', hlength'⟩ := overlooks_lineEnd? hline
    rw [withoutComments_cons hclose] at hpath' hlength
    rw [withoutComments_cons hopen, withoutComments_cons hopen]
    simp only [List.length_cons] at hlength ⊢
    refine ⟨?_, by omega⟩
    simp only [readStatement, hpath', hafter, hline', Option.bind_eq_bind, Option.bind_some]
  · next t hno =>
    simp only [Option.bind_eq_bind, Option.bind_eq_some_iff] at h
    obtain ⟨⟨path, r₁⟩, hpath, r₂, hafter₁, r₃, hline, heq⟩ := h
    cases heq
    obtain ⟨hpath', hlength⟩ := readPath_upTo hclose hpath hafter₁
    obtain ⟨hline', hlength'⟩ := overlooks_lineEnd? hline
    have hone : ∀ u, withoutComments t ≠ '[' :: u :=
      ne_cons_withoutComments rfl fun u hu => hno u (by rw [hu])
    rw [withoutComments_cons hopen, readStatement_header hone, hpath']
    simp only [hafter, hline', Option.bind_some, List.length_cons, true_and]
    omega
  · next hno hno' =>
    simp only [Option.bind_eq_bind, Option.bind_eq_some_iff] at h
    obtain ⟨⟨⟨path, v⟩, r₁⟩, hpair, r₂, hline, heq⟩ := h
    cases heq
    obtain ⟨hpair', hlength⟩ := overlooks_readPair (readValue_withoutComments maxDepth) _ _ _ hpair
    obtain ⟨hline', hlength'⟩ := overlooks_lineEnd? hline
    rw [readStatement_key (ne_cons_withoutComments rfl hno'), hpair']
    refine ⟨?_, hlength'.trans_lt hlength⟩
    simp only [hline', Option.bind_some]

theorem skipBlanks_skipBlanks (s : List Char) : skipBlanks (skipBlanks s) = skipBlanks s :=
  List.dropWhile_idempotent isInlineBlank s

theorem lineEnd?_skipBlanks (s : List Char) : lineEnd? (skipBlanks s) = lineEnd? s := by
  unfold lineEnd?
  rw [skipBlanks_skipBlanks]

theorem exists_starter_of_readPath {parts : Nat} {s r : List Char} {path : List String}
    (h : readPath parts (skipBlanks s) = some (path, r)) :
    ∃ c t, skipBlanks s = c :: t ∧ Starter c := by
  cases parts with
  | zero => cases h
  | succ parts =>
    unfold readPath at h
    rw [skipBlanks_skipBlanks] at h
    simp only [Option.bind_eq_bind, Option.bind_eq_some_iff] at h
    obtain ⟨⟨k, r'⟩, hpart, -⟩ := h
    cases ht : skipBlanks s with
    | nil =>
      rw [ht] at hpart
      cases hpart
    | cons c t =>
      refine ⟨c, t, rfl, ?_⟩
      rw [ht] at hpart
      by_cases hquote : c = '"' ∨ c = '\''
      · exact starter_quote hquote
      · have hnone : readQuoted false (c :: t) = none :=
          readQuoted_eq_none false (fun h => hquote (.inl h)) (fun h => hquote (.inr h)) t
        unfold readPart at hpart
        rw [hnone] at hpart
        refine starter_keyChar ?_
        by_contra hkey
        rw [List.takeWhile_cons_of_neg hkey] at hpart
        cases hpart

/-- A statement starts with a bracket, a quote or a character of a key. -/
theorem exists_starter_of_readStatement {s r : List Char} {st : Statement}
    (h : readStatement (skipBlanks s) = some (st, r)) :
    ∃ c t, skipBlanks s = c :: t ∧ Starter c := by
  cases ht : skipBlanks s with
  | nil =>
    rw [ht] at h
    cases h
  | cons c t =>
    by_cases hc : c = '['
    · exact ⟨c, t, rfl, hc ▸ starter_bracket⟩
    · have hkey : ∀ u, skipBlanks s ≠ '[' :: u := by
        rintro u hu
        rw [ht] at hu
        exact hc (List.cons.inj hu).1
      rw [readStatement_key hkey, Option.bind_eq_some_iff] at h
      obtain ⟨x, hpair, -⟩ := h
      unfold readPair at hpair
      simp only [Option.bind_eq_bind, Option.bind_eq_some_iff] at hpair
      obtain ⟨y, hpath, -⟩ := hpair
      rw [← ht]
      exact exists_starter_of_readPath hpath

theorem readStatementsFrom_line {fuel : Nat} {s r : List Char} (hs : s ≠ [])
    (h : lineEnd? s = some r) : readStatementsFrom (fuel + 1) s = readStatementsFrom fuel r := by
  cases s with
  | nil => exact absurd rfl hs
  | cons c s => simp only [readStatementsFrom, h]

theorem readStatementsFrom_statement {fuel : Nat} {s r : List Char} {st : Statement} (hs : s ≠ [])
    (h : lineEnd? s = none) (hst : readStatement (skipBlanks s) = some (st, r)) :
    readStatementsFrom (fuel + 1) s =
      (readStatementsFrom fuel r).bind fun sts => some (st :: sts) := by
  cases s with
  | nil => exact absurd rfl hs
  | cons c s => simp only [readStatementsFrom, h, hst, Option.bind_eq_bind, Option.bind_some]

theorem exists_of_readStatementsFrom {fuel : Nat} {s : List Char} {sts : List Statement}
    (hs : s ≠ []) (hline : lineEnd? s = none) (h : readStatementsFrom (fuel + 1) s = some sts) :
    ∃ st r sts', readStatement (skipBlanks s) = some (st, r) ∧
      readStatementsFrom fuel r = some sts' ∧ sts = st :: sts' := by
  cases s with
  | nil => exact absurd rfl hs
  | cons c s =>
    simp only [readStatementsFrom, hline, Option.bind_eq_bind, Option.bind_eq_some_iff] at h
    obtain ⟨⟨st, r⟩, hst, sts', hrest, heq⟩ := h
    exact ⟨st, r, sts', hst, hrest, (Option.some.inj heq).symm⟩

/-- Where a statement stands, no line ends without comments either. -/
theorem lineEnd?_withoutComments_eq_none {s r : List Char} {st : Statement}
    (h : readStatement (skipBlanks s) = some (st, r)) : lineEnd? (withoutComments s) = none := by
  obtain ⟨c, t, ht, hc⟩ := exists_starter_of_readStatement h
  obtain ⟨w, hw⟩ := exists_withoutComments_cons hc.comment t
  rw [← lineEnd?_skipBlanks, skipBlanks_withoutComments, ht, hw]
  exact hc.lineEnd? w

theorem readStatementsFrom_nil (fuel : Nat) : readStatementsFrom fuel [] = some [] := by
  cases fuel <;> rfl

theorem readStatementsFrom_withoutComments {fuel fuel' : Nat} {s : List Char}
    {sts : List Statement} (h : readStatementsFrom fuel s = some sts)
    (hfuel : (withoutComments s).length ≤ fuel') :
    readStatementsFrom fuel' (withoutComments s) = some sts := by
  induction fuel generalizing fuel' s sts with
  | zero =>
    cases s with
    | nil =>
      cases h
      rw [withoutComments_nil, readStatementsFrom_nil]
    | cons c s => cases h
  | succ fuel ih =>
    by_cases hs : s = []
    · subst hs
      cases h
      rw [withoutComments_nil, readStatementsFrom_nil]
    · cases hline : lineEnd? s with
      | some r =>
        have hline' := lineEnd?_withoutComments hline
        rw [readStatementsFrom_line hs hline] at h
        -- Nothing may be left of a line that held only a comment.
        rcases length_lineEnd? hline' with hlt | ⟨hnil, hnil'⟩
        · obtain ⟨n, rfl⟩ : ∃ n, fuel' = n + 1 := ⟨fuel' - 1, by omega⟩
          have hne : withoutComments s ≠ [] := List.ne_nil_of_length_pos (by omega)
          rw [readStatementsFrom_line hne hline']
          exact ih h (by omega)
        · rw [hnil, ← hnil']
          exact ih h (by rw [hnil']; exact Nat.zero_le _)
      | none =>
        obtain ⟨st, r, sts', hst, hrest, rfl⟩ := exists_of_readStatementsFrom hs hline h
        have hline' := lineEnd?_withoutComments_eq_none hst
        obtain ⟨hst', hlength⟩ := overlooks_readStatement _ _ _ hst
        have hblanks := length_skipBlanks_le (withoutComments s)
        rw [skipBlanks_withoutComments] at hblanks
        obtain ⟨n, rfl⟩ : ∃ n, fuel' = n + 1 := ⟨fuel' - 1, by omega⟩
        have hne : withoutComments s ≠ [] := List.ne_nil_of_length_pos (by omega)
        rw [← skipBlanks_withoutComments] at hst'
        rw [readStatementsFrom_statement hne hline' hst', ih hrest (by omega)]
        rfl

/-- **The statements of a text are the same without comments.** -/
theorem readStatements_withoutComments {s : List Char} {sts : List Statement}
    (h : readStatements s = some sts) : readStatements (withoutComments s) = some sts := by
  have hmark : Ordinary '\uFEFF' := ⟨by decide, by decide, by decide⟩
  unfold readStatements at h ⊢
  by_cases hs : s.head? = some '\uFEFF'
  · obtain ⟨t, rfl⟩ := List.head?_eq_some_iff.1 hs
    rw [withoutComments_cons hmark]
    exact readStatementsFrom_withoutComments h (Nat.le_refl _)
  · rw [if_neg hs] at h
    rw [if_neg fun hhead => hs (head?_withoutComments hhead rfl)]
    exact readStatementsFrom_withoutComments h (Nat.le_refl _)

/-- **A document is the same without comments.** -/
theorem parse?_withoutComments {text : String} {es : Entries} (h : parse? text = some es) :
    parse? (String.ofList (withoutComments text.toList)) = some es := by
  unfold parse? at h ⊢
  rw [String.toList_ofList]
  simp only [Option.bind_eq_bind, Option.bind_eq_some_iff] at h ⊢
  obtain ⟨sts, hsts, hrun⟩ := h
  exact ⟨sts, readStatements_withoutComments hsts, hrun⟩

end CommitGate.Toml

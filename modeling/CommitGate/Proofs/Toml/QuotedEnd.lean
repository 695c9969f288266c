import CommitGate.Proofs.Toml.Quoted

/-!
# Quoted strings end by themselves

A quoted string is read up to its last quote, and what stands behind it is not looked at. Only
between three quotes does the character behind the string matter, since one or two more quotes
belong to the string.

Results:

* `readQuoted_append`: the same is read whatever stands behind the string, but for one more quote.
* `readQuoted_of_not_fenced`: whether three quotes are allowed matters only where they stand.
-/

namespace CommitGate.Toml

/-! ## The machine -/

namespace Form

variable {f : Form} {p : Phase} {c : Char} {out : List Char}

theorem bodyStep_ne_closed (f : Form) (c : Char) (out : List Char) :
    f.bodyStep c ≠ .closed out := by
  unfold bodyStep
  split
  · split <;> exact Step.noConfusion
  · split
    · exact Step.noConfusion
    · split
      · exact Step.noConfusion
      · split
        · exact Step.noConfusion
        · split <;> exact Step.noConfusion

theorem gapStep_ne_closed (c : Char) (out : List Char) : gapStep c ≠ .closed out := by
  unfold gapStep
  split
  · exact Step.noConfusion
  · split
    · exact Step.noConfusion
    · split <;> exact Step.noConfusion

/-- Only after three quotes does a character show that the string has ended in front of it. -/
theorem of_step_eq_closed (h : f.step c p = .closed out) :
    ∃ n, p = .quotes n ∧ 3 ≤ n ∧ c ≠ f.quote ∧ out = List.replicate (n - 3) f.quote := by
  cases p with
  | body => exact absurd h (bodyStep_ne_closed f c out)
  | carriage =>
    simp only [step] at h
    split at h <;> cases h
  | quotes n =>
    simp only [step] at h
    split at h
    · split at h <;> cases h
    · next hc =>
      split at h
      · next hn =>
        cases h
        exact ⟨n, rfl, hn, hc, rfl⟩
      · split at h
        · cases h
        · exact absurd h (bodyStep_ne_closed f c out)
  | escape =>
    simp only [step] at h
    split at h
    · cases h
    · split at h
      · cases h
      · split at h
        · exact absurd h (gapStep_ne_closed c out)
        · cases hescaped : escapedChar? c <;> rw [hescaped] at h <;> cases h
  | code left value =>
    simp only [step] at h
    split at h
    · cases h
    · next d hd =>
      split at h
      · cases h
      · cases hscalar : scalar? (value * 16 + d) <;> rw [hscalar] at h <;> cases h
  | gap => exact absurd h (gapStep_ne_closed c out)
  | gapCarriage =>
    simp only [step] at h
    split at h <;> cases h
  | indent =>
    simp only [step] at h
    split at h
    · cases h
    · split at h
      · cases h
      · exact absurd h (bodyStep_ne_closed f c out)
  | indentCarriage =>
    simp only [step] at h
    split at h <;> cases h

theorem readFrom_fail (h : f.step c p = .fail) (r : List Char) : f.readFrom p (c :: r) = none := by
  cases p <;> simp only [readFrom, h]

theorem of_readFrom_nil {t r : List Char} (h : f.readFrom p [] = some (t, r)) :
    ∃ n, p = .quotes n ∧ 3 ≤ n ∧ t = List.replicate (n - 3) f.quote ∧ r = [] := by
  cases p with
  | quotes n =>
    simp only [readFrom] at h
    split at h
    · next hn =>
      cases h
      exact ⟨n, rfl, hn, rfl, rfl⟩
    · cases h
  | _ => cases h

/-- The same is read whatever stands behind the string, but for one more quote. -/
theorem readFrom_append {s t r : List Char} (h : f.readFrom p s = some (t, r)) :
    ∃ w, s = w ++ r ∧ ∀ r', (r'.head? = some f.quote → r.head? = some f.quote) →
      f.readFrom p (w ++ r') = some (t, r') := by
  induction s generalizing p t with
  | nil =>
    obtain ⟨n, rfl, hn, rfl, rfl⟩ := of_readFrom_nil h
    exact ⟨[], rfl, fun r' hr' => readFrom_quotes hn fun hquote => by cases hr' hquote⟩
  | cons c s ih =>
    cases hstep : f.step c p with
    | go out next =>
      rw [readFrom_go hstep] at h
      obtain ⟨⟨t', r''⟩, hread, heq⟩ := Option.map_eq_some_iff.1 h
      cases heq
      obtain ⟨w, rfl, hw⟩ := ih hread
      refine ⟨c :: w, rfl, fun r' hr' => ?_⟩
      rw [List.cons_append, readFrom_go hstep, hw r' hr']
      rfl
    | close out =>
      rw [readFrom_close hstep] at h
      cases h
      exact ⟨[c], rfl, fun r' _ => readFrom_close hstep r'⟩
    | closed out =>
      rw [readFrom_closed hstep] at h
      cases h
      obtain ⟨n, rfl, hn, hc, rfl⟩ := of_step_eq_closed hstep
      refine ⟨[], rfl, fun r' hr' => readFrom_quotes hn fun hquote => ?_⟩
      exact hc (Option.some.inj (hr' hquote))
    | fail =>
      rw [readFrom_fail hstep] at h
      cases h

theorem readFrom_body_carriage (hquote : f.quote ≠ '\r') : f.readFrom .body ['\r'] = none := by
  have hstep : f.step '\r' .body = if f.long then .go [] .carriage else .fail := by
    simp only [step, bodyStep, if_neg hquote.symm]
    cases f.long <;> simp [isPlain]
  cases hlong : f.long with
  | true =>
    rw [hlong, if_pos rfl] at hstep
    rw [readFrom_go hstep]
    rfl
  | false =>
    rw [hlong, if_neg Bool.false_ne_true] at hstep
    exact readFrom_fail hstep []

end Form

/-! ## The four forms -/

/-- A character that starts a quoted string. -/
def IsQuote (c : Char) : Prop :=
  c = '"' ∨ c = '\''

/-- Three quotes stand in front. -/
def Fenced (s : List Char) : Prop :=
  ∃ q r, IsQuote q ∧ s = q :: q :: q :: r

/-- The four ways to quote: between three quotes, or between single ones. -/
theorem readQuoted_cases {s t r : List Char} (h : readQuoted true s = some (t, r)) :
    ∃ f : Form, f.Suits [] ∧ IsQuote f.quote ∧
      ((f.long = true ∧ ∃ u, s = f.quote :: f.quote :: f.quote :: u ∧
          f.readFrom .body (dropNewline u) = some (t, r)) ∨
        (f.long = false ∧ ¬ Fenced s ∧
          ∃ u, s = f.quote :: u ∧ f.readFrom .body u = some (t, r))) := by
  have hsuits {f : Form} (hquote : f.quote = if f.escapes then '"' else '\'') : f.Suits [] :=
    ⟨hquote, fun _ _ hc => absurd hc List.not_mem_nil, fun _ hc => absurd hc List.not_mem_nil,
      fun _ => Nat.zero_le _⟩
  unfold readQuoted at h
  split at h
  · next u => exact ⟨.longBasic, hsuits rfl, .inl rfl, .inl ⟨rfl, u, rfl, h⟩⟩
  · next u => exact ⟨.longLiteral, hsuits rfl, .inr rfl, .inl ⟨rfl, u, rfl, h⟩⟩
  · next u hdouble =>
    refine ⟨.basic, hsuits rfl, .inl rfl, .inr ⟨rfl, ?_, u, rfl, h⟩⟩
    rintro ⟨q, r, -, heq⟩
    cases heq
    exact hdouble r rfl
  · next u hsingle =>
    refine ⟨.literal, hsuits rfl, .inr rfl, .inr ⟨rfl, ?_, u, rfl, h⟩⟩
    rintro ⟨q, r, -, heq⟩
    cases heq
    exact hsingle r rfl
  · cases h

theorem readQuoted_of_not_fenced {s : List Char} (h : ¬ Fenced s) :
    readQuoted false s = readQuoted true s := by
  unfold readQuoted
  split
  · next r => exact absurd ⟨'"', r, .inl rfl, rfl⟩ h
  · next r => exact absurd ⟨'\'', r, .inr rfl, rfl⟩ h
  · rfl
  · rfl
  · rfl

/-- The second text starts with a quote only where the first does. -/
def Beside (r r' : List Char) : Prop :=
  ∀ q, IsQuote q → r'.head? = some q → r.head? = some q

theorem fenced_of_append {w r r' : List Char} (hw : 2 ≤ w.length) (hr : Beside r r')
    (h : Fenced (w ++ r')) : Fenced (w ++ r) := by
  obtain ⟨q, u, hq, heq⟩ := h
  match w with
  | [] => cases hw
  | [a] => exact absurd (Nat.le_of_succ_le_succ hw) (Nat.not_succ_le_zero 0)
  | [a, b] =>
    cases heq
    obtain ⟨r, rfl⟩ := List.head?_eq_some_iff.1 (hr _ hq rfl)
    exact ⟨_, r, hq, rfl⟩
  | a :: b :: c :: w =>
    cases heq
    exact ⟨_, _, hq, rfl⟩

theorem dropNewline_append {u w r : List Char} (h : dropNewline u = w ++ r) (hnil : w ≠ [])
    (hcarriage : w ≠ ['\r']) :
    ∃ n, u = n ++ (w ++ r) ∧ ∀ r', dropNewline (n ++ (w ++ r')) = w ++ r' := by
  unfold dropNewline at h
  split at h
  · exact ⟨['\n'], by rw [h]; rfl, fun r' => rfl⟩
  · exact ⟨['\r', '\n'], by rw [h]; rfl, fun r' => rfl⟩
  · next hnewline hreturn =>
    subst h
    refine ⟨[], rfl, fun r' => ?_⟩
    rw [List.nil_append]
    match w with
    | [] => exact absurd rfl hnil
    | [c] =>
      unfold dropNewline
      split
      · next heq =>
        cases heq
        exact absurd rfl (hnewline r)
      · next heq =>
        cases heq
        exact absurd rfl hcarriage
      · rfl
    | c :: d :: w =>
      unfold dropNewline
      split
      · next heq =>
        cases heq
        exact absurd rfl (hnewline (d :: w ++ r))
      · next heq =>
        cases heq
        exact absurd rfl (hreturn (w ++ r))
      · rfl

/-- **A quoted string ends by itself**: the same is read whatever stands behind it, but for one more
quote. -/
theorem readQuoted_append {s t r : List Char} (h : readQuoted true s = some (t, r)) :
    ∃ c w, IsQuote c ∧ w ≠ [] ∧ s = c :: (w ++ r) ∧
      ∀ r', Beside r r' → readQuoted true (c :: (w ++ r')) = some (t, r') := by
  obtain ⟨f, hsuits, hquote, ⟨hlong, u, rfl, hread⟩ | ⟨hshort, hfenced, u, rfl, hread⟩⟩ :=
    readQuoted_cases h
  · obtain ⟨w, hw, hsame⟩ := Form.readFrom_append hread
    have hend : f.readFrom .body (w ++ []) = some (t, []) := hsame [] fun h => by cases h
    rw [List.append_nil] at hend
    have hnil : w ≠ [] := by
      rintro rfl
      cases hend
    have hcarriage : w ≠ ['\r'] := by
      rintro rfl
      rw [Form.readFrom_body_carriage (by rcases hquote with h | h <;> rw [h] <;> decide)] at hend
      cases hend
    obtain ⟨n, rfl, hn⟩ := dropNewline_append hw hnil hcarriage
    refine ⟨f.quote, f.quote :: f.quote :: (n ++ w), hquote, List.cons_ne_nil _ _, by simp,
      fun r' hr' => ?_⟩
    rw [List.cons_append, List.cons_append, List.append_assoc, Form.readQuoted_long hsuits hlong,
      hn]
    exact hsame r' (hr' _ hquote)
  · obtain ⟨w, rfl, hsame⟩ := Form.readFrom_append hread
    have hnil : w ≠ [] := by
      rintro rfl
      have hend := hsame [] fun h => by cases h
      cases hend
    refine ⟨f.quote, w, hquote, hnil, rfl, fun r' hr' => ?_⟩
    rw [Form.readQuoted_short hsuits hshort]
    · exact hsame r' (hr' _ hquote)
    · intro u hu
      have hlength : 2 ≤ (f.quote :: w).length := by
        have := List.length_pos_iff.2 hnil
        rw [List.length_cons]
        omega
      refine hfenced (fenced_of_append hlength hr' ⟨f.quote, u, hquote, ?_⟩)
      rw [List.cons_append, hu]

theorem length_lt_of_readQuoted {s t r : List Char} (h : readQuoted true s = some (t, r)) :
    r.length < s.length := by
  obtain ⟨c, w, -, -, rfl, -⟩ := readQuoted_append h
  rw [List.length_cons, List.length_append]
  omega

end CommitGate.Toml

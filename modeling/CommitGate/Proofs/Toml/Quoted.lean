import CommitGate.Toml.Quoted
import Mathlib.Data.List.Basic

/-!
# Quoted strings are read back

A body spells a text when the reading machine takes it to the end of the text. Quotes that stand
bare in a row are held back until it is known that they do not end the string, so spelling goes from
one run of quotes to another. Escapes, plain characters and bare quotes spell one character each,
and spellings are put together one after the other.

Results:

* `spells_escapeFrom`, `spells_bare`: what is written between the quotes spells the text, with
  escapes or without.
* `suits_ofText`: the form that is chosen for a text can hold it.
* `readQuoted_writeQuoted`: every text is read back from its quoted form, and nothing of what
  follows is taken.
-/

namespace CommitGate.Toml

/-! ## Steps of the machine -/

/-- The same reading, with more characters in front of the string. -/
def prepend (out : List Char) (x : Option (List Char × List Char)) :
    Option (List Char × List Char) :=
  x.map fun p => (out ++ p.1, p.2)

theorem prepend_nil (x : Option (List Char × List Char)) : prepend [] x = x := by
  cases x <;> rfl

theorem prepend_prepend (out out' : List Char) (x : Option (List Char × List Char)) :
    prepend out (prepend out' x) = prepend (out ++ out') x := by
  cases x with
  | none => rfl
  | some p => simp [prepend]

namespace Form

variable {f : Form} {p next : Phase} {c : Char} {out : List Char}

theorem readFrom_go (h : f.step c p = .go out next) (r : List Char) :
    f.readFrom p (c :: r) = prepend out (f.readFrom next r) := by
  have hread : f.readFrom p (c :: r) =
      (f.readFrom next r).bind fun q => some (out ++ q.1, q.2) := by
    cases p <;> simp only [readFrom, h] <;> rfl
  rw [hread]
  cases f.readFrom next r <;> rfl

theorem readFrom_close (h : f.step c p = .close out) (r : List Char) :
    f.readFrom p (c :: r) = some (out, r) := by
  cases p <;> simp only [readFrom, h]

theorem readFrom_closed (h : f.step c p = .closed out) (r : List Char) :
    f.readFrom p (c :: r) = some (out, c :: r) := by
  cases p <;> simp only [readFrom, h]

/-! ## Runs of quotes -/

/-- The phase after so many bare quotes in a row. -/
def afterRun (n : Nat) : Phase :=
  if n = 0 then .body else .quotes n

/-- How many quotes may stand bare in a row. -/
def limit (f : Form) : Nat :=
  if f.long then 2 else 0

theorem step_afterRun {n : Nat} (hn : n ≤ f.limit) (hc : c ≠ f.quote)
    (h : f.bodyStep c = .go out next) :
    f.step c (afterRun n) = .go (List.replicate n f.quote ++ out) next := by
  have hlimit : f.limit ≤ 2 := by
    unfold limit
    split <;> omega
  unfold afterRun
  split
  · rename_i h0
    rw [h0]
    exact h
  · simp only [step]
    rw [if_neg hc, if_neg (by omega), h]

theorem step_quotes {n : Nat} (hn : n < 4) :
    f.step f.quote (.quotes n) = .go [] (.quotes (n + 1)) := by
  simp [step, hn]

theorem step_lastQuote : f.step f.quote (.quotes 4) = .close (List.replicate 2 f.quote) := by
  simp [step]

theorem step_afterRun_quote (hlong : f.long = true) {n : Nat} (hn : n < 4) :
    f.step f.quote (afterRun n) = .go [] (.quotes (n + 1)) := by
  unfold afterRun
  split
  · rename_i h0
    simp [step, bodyStep, hlong, h0]
  · exact step_quotes hn

theorem step_bareQuote {n : Nat} (hn : n < f.limit) :
    f.step f.quote (afterRun n) = .go [] (afterRun (n + 1)) := by
  unfold limit at hn
  split at hn
  · rename_i hlong
    exact step_afterRun_quote hlong (by omega)
  · omega

/-! ## Spelling -/

/-- After `n` quotes in a row the body spells the text and leaves `m` quotes in a row behind. -/
def Spells (f : Form) (n : Nat) (s body : List Char) (m : Nat) : Prop :=
  ∃ out, List.replicate n f.quote ++ s = out ++ List.replicate m f.quote ∧
    ∀ r, f.readFrom (afterRun n) (body ++ r) = prepend out (f.readFrom (afterRun m) r)

theorem Spells.nil (n : Nat) : f.Spells n [] [] n :=
  ⟨[], by simp, fun r => (prepend_nil _).symm⟩

theorem Spells.append {n k m : Nat} {s s' b b' : List Char} (h : f.Spells n s b k)
    (h' : f.Spells k s' b' m) :
    f.Spells n (s ++ s') (b ++ b') m := by
  obtain ⟨out, hout, hread⟩ := h
  obtain ⟨out', hout', hread'⟩ := h'
  refine ⟨out ++ out', ?_, fun r => ?_⟩
  · rw [← List.append_assoc, hout, List.append_assoc, hout', List.append_assoc]
  · rw [List.append_assoc, hread, hread', prepend_prepend]

theorem Spells.quote {n : Nat} (hn : n < f.limit) : f.Spells n [f.quote] [f.quote] (n + 1) :=
  ⟨[], by rw [← List.replicate_succ', List.nil_append], fun r => readFrom_go (step_bareQuote hn) r⟩

theorem Spells.plain {n : Nat} (hn : n ≤ f.limit) (hc : c ≠ f.quote)
    (h : f.bodyStep c = .go [c] .body) :
    f.Spells n [c] [c] 0 :=
  ⟨List.replicate n f.quote ++ [c], by simp, fun r => readFrom_go (step_afterRun hn hc h) r⟩

/-! ## Escapes -/

theorem hexValue?_hexDigit : ∀ n < 16, Text.hexValue? (hexDigit n) = some n := by
  decide

theorem scalar?_toNat (c : Char) : scalar? c.toNat = some c := by
  have hvalid : c.toNat.isValidChar := c.valid
  unfold scalar?
  rw [if_pos hvalid, Char.ofNat_toNat]

theorem step_letter {d : Char} (h : escapedChar? d = some c) :
    f.step d .escape = .go [c] .body := by
  unfold escapedChar? at h
  split at h <;> cases h <;> simp [step, escapedChar?]

theorem step_digit {left value d : Nat} (h : Text.hexValue? c = some d) (hleft : 1 < left) :
    f.step c (.code left value) = .go [] (.code (left - 1) (value * 16 + d)) := by
  simp only [step, h]
  rw [if_pos hleft]

theorem step_lastDigit {value d : Nat} {e : Char} (h : Text.hexValue? c = some d)
    (he : value * 16 + d = e.toNat) :
    f.step c (.code 1 value) = .go [e] .body := by
  simp only [step, h, he, scalar?_toNat]
  rfl

/-- Escapes are for double quotes. -/
structure Escaping (f : Form) : Prop where
  escapes : f.escapes = true
  quote : f.quote = '"'

theorem bodyStep_backslash (hf : f.Escaping) : f.bodyStep '\\' = .go [] .escape := by
  simp [bodyStep, hf.escapes, hf.quote]

theorem readFrom_backslash (hf : f.Escaping) {n : Nat} (hn : n ≤ f.limit) (r : List Char) :
    f.readFrom (afterRun n) ('\\' :: r) = prepend (List.replicate n f.quote)
      (f.readFrom .escape r) := by
  have hne : '\\' ≠ f.quote := by
    rw [hf.quote]
    decide
  rw [readFrom_go (step_afterRun hn hne (bodyStep_backslash hf)), List.append_nil]

theorem Spells.letter (hf : f.Escaping) {n : Nat} (hn : n ≤ f.limit) {d : Char}
    (h : escapedChar? d = some c) :
    f.Spells n [c] ['\\', d] 0 := by
  refine ⟨List.replicate n f.quote ++ [c], by simp, fun r => ?_⟩
  rw [List.cons_append, readFrom_backslash hf hn, List.cons_append, readFrom_go (step_letter h),
    prepend_prepend]
  rfl

theorem Spells.code (hf : f.Escaping) {n : Nat} (hn : n ≤ f.limit) (hc : c.toNat < 0x100) :
    f.Spells n [c] ['\\', 'u', '0', '0', hexDigit (c.toNat / 16), hexDigit (c.toNat % 16)] 0 := by
  have zero : Text.hexValue? '0' = some 0 := rfl
  have high := hexValue?_hexDigit (c.toNat / 16) (by omega)
  have low := hexValue?_hexDigit (c.toNat % 16) (by omega)
  have opened : f.step 'u' .escape = .go [] (.code 4 0) := rfl
  refine ⟨List.replicate n f.quote ++ [c], by simp, fun r => ?_⟩
  simp only [List.cons_append, List.nil_append]
  rw [readFrom_backslash hf hn, readFrom_go opened, readFrom_go (step_digit zero (by omega)),
    readFrom_go (step_digit zero (by omega)), readFrom_go (step_digit high (by omega)),
    readFrom_go (step_lastDigit low (e := c) (by omega))]
  simp only [prepend_prepend]
  rfl

/-- An escape is read as the character that it was written for. -/
theorem Spells.escape (hf : f.Escaping) {n : Nat} (hn : n ≤ f.limit) {bareQuote bareNewline : Bool}
    {e : List Char} (h : escape? bareQuote bareNewline c = some e) : f.Spells n [c] e 0 := by
  unfold escape? at h
  split at h
  · rename_i hc
    subst hc
    split at h <;> cases h
    exact .letter hf hn rfl
  split at h
  · rename_i hc
    subst hc
    split at h <;> cases h
    exact .letter hf hn rfl
  iterate 5
    split at h
    · rename_i hc
      subst hc
      cases h
      exact .letter hf hn rfl
  split at h
  · rename_i hcontrol
    cases h
    refine .code hf hn ?_
    simp only [isControl, Bool.or_eq_true, Bool.and_eq_true, decide_eq_true_eq] at hcontrol
    omega
  · cases h

/-! ## Bodies -/

theorem ne_return_of_not_isControl (h : isControl c = false) : c ≠ '\r' := by
  rintro rfl
  cases h

theorem bodyStep_plain (hq : c ≠ f.quote) (hb : f.escapes = true → c ≠ '\\')
    (hn : c = '\n' → f.long = true) (hc : isControl c = false) : f.bodyStep c = .go [c] .body := by
  unfold bodyStep
  rw [if_neg hq, if_neg (fun h => hb h.2 h.1)]
  by_cases hnewline : c = '\n'
  · rw [if_pos ⟨hnewline, hn hnewline⟩, hnewline]
  · have hreturn := ne_return_of_not_isControl hc
    rw [if_neg (fun h => hnewline h.1), if_neg (fun h => hreturn h.1),
      if_pos (isPlain_of_not_isControl hc hnewline)]

/-- A character that is written bare has no escape. -/
theorem of_escape?_eq_none {bareQuote bareNewline : Bool}
    (h : escape? bareQuote bareNewline c = none) :
    (c = '"' → bareQuote = true) ∧ (c = '\n' → bareNewline = true) ∧ c ≠ '\\' ∧
      isControl c = false := by
  unfold escape? at h
  split at h
  · rename_i hc
    subst hc
    cases bareQuote
    · cases h
    · exact ⟨fun _ => rfl, fun hc => absurd hc (by decide), by decide, by decide⟩
  rename_i hquote
  split at h
  · rename_i hc
    subst hc
    cases bareNewline
    · cases h
    · exact ⟨fun hc => absurd hc (by decide), fun _ => rfl, by decide, by decide⟩
  rename_i hnewline
  split at h
  · cases h
  rename_i hbackslash
  iterate 4
    split at h
    · cases h
  split at h
  · cases h
  · rename_i hcontrol
    exact ⟨fun hc => absurd hc hquote, fun hc => absurd hc hnewline,
      hbackslash, by simpa using hcontrol⟩

/-- What is written with escapes spells the text. -/
theorem spells_escapeFrom (hf : f.Escaping) {n : Nat} (hn : n ≤ f.limit) (s : List Char) :
    ∃ m, m ≤ f.limit ∧ f.Spells n s (escapeFrom f.long n s) m := by
  induction s generalizing n with
  | nil => exact ⟨n, hn, .nil n⟩
  | cons c s ih =>
    rw [escapeFrom]
    cases he : escape? (f.long && n < 2) f.long c with
    | some e =>
      obtain ⟨m, hm, hspells⟩ := ih (Nat.zero_le _)
      exact ⟨m, hm, (Spells.escape hf hn he).append hspells⟩
    | none =>
      obtain ⟨hquote, hnewline, hbackslash, hcontrol⟩ := of_escape?_eq_none he
      by_cases hc : c = '"'
      · have hbare := hquote hc
        simp only [Bool.and_eq_true, decide_eq_true_eq] at hbare
        have hrun : n < f.limit := by
          unfold limit
          rw [if_pos hbare.1]
          exact hbare.2
        obtain ⟨m, hm, hspells⟩ := ih (n := n + 1) hrun
        have hfirst := Spells.quote hrun
        rw [hf.quote, ← hc] at hfirst
        rw [if_pos hc]
        exact ⟨m, hm, hfirst.append hspells⟩
      · obtain ⟨m, hm, hspells⟩ := ih (Nat.zero_le _)
        rw [if_neg hc]
        rw [← hf.quote] at hc
        exact ⟨m, hm, (Spells.plain hn hc
          (bodyStep_plain hc (fun _ => hbackslash) hnewline hcontrol)).append hspells⟩

theorem le_longestRun (q : Char) (n : Nat) (s : List Char) : n ≤ longestRun q n s := by
  induction s generalizing n with
  | nil => exact Nat.le_refl n
  | cons c s ih =>
    rw [longestRun]
    split
    · exact Nat.le_trans (Nat.le_succ n) (ih (n + 1))
    · exact Nat.le_max_left _ _

/-- A text spells itself where nothing is escaped, unless it has a control character or too many
quotes in a row. -/
theorem spells_bare (hf : f.escapes = false) {n : Nat} {s : List Char}
    (hcontrol : ∀ c ∈ s, isControl c = false)
    (hnewline : '\n' ∈ s → f.long = true) (hrun : longestRun f.quote n s ≤ f.limit) :
    ∃ m, m ≤ f.limit ∧ f.Spells n s s m := by
  induction s generalizing n with
  | nil => exact ⟨n, hrun, .nil n⟩
  | cons c s ih =>
    have hcontrol' : ∀ d ∈ s, isControl d = false :=
      fun d hd => hcontrol d (List.mem_cons_of_mem c hd)
    have hnewline' : '\n' ∈ s → f.long = true := fun h => hnewline (List.mem_cons_of_mem c h)
    rw [longestRun] at hrun
    by_cases hc : c = f.quote
    · rw [if_pos hc] at hrun
      obtain ⟨m, hm, hspells⟩ := ih hcontrol' hnewline' hrun
      have hfirst := Spells.quote (Nat.lt_of_lt_of_le (Nat.lt_succ_self n)
          (Nat.le_trans (le_longestRun _ _ _) hrun))
      rw [← hc] at hfirst
      exact ⟨m, hm, hfirst.append hspells⟩
    · rw [if_neg hc] at hrun
      obtain ⟨m, hm, hspells⟩ := ih hcontrol' hnewline' (Nat.le_trans (Nat.le_max_right _ _) hrun)
      have hstep : f.bodyStep c = .go [c] .body := by
        refine bodyStep_plain hc (fun h => ?_) (fun h => hnewline (h ▸ List.mem_cons_self))
          (hcontrol c List.mem_cons_self)
        rw [hf] at h
        cases h
      exact ⟨m, hm, (Spells.plain (Nat.le_trans (Nat.le_max_left _ _) hrun) hc hstep).append
        hspells⟩

/-! ## The end of a string -/

theorem readFrom_quotes {n : Nat} (hn : 3 ≤ n) {rest : List Char}
    (hrest : rest.head? ≠ some f.quote) :
    f.readFrom (.quotes n) rest = some (List.replicate (n - 3) f.quote, rest) := by
  cases rest with
  | nil => rw [readFrom, if_pos hn]
  | cons c r =>
    have hc : c ≠ f.quote := fun h => hrest (congrArg some h)
    refine readFrom_closed ?_ r
    simp only [step]
    rw [if_neg hc, if_pos hn]

/-- A fence ends the string, and the quotes in front of it belong to the text. -/
theorem readFrom_fence {m : Nat} (hm : m ≤ f.limit) {rest : List Char}
    (hrest : rest.head? ≠ some f.quote) :
    f.readFrom (afterRun m) (f.fence ++ rest) = some (List.replicate m f.quote, rest) := by
  unfold limit at hm
  unfold fence
  cases hlong : f.long with
  | false =>
    rw [hlong] at hm
    obtain rfl : m = 0 := Nat.le_zero.1 hm
    exact readFrom_close (by simp [afterRun, step, bodyStep, hlong]) rest
  | true =>
    rw [hlong] at hm
    have hfence : List.replicate (if true then 3 else 1) f.quote ++ rest =
        f.quote :: f.quote :: f.quote :: rest := rfl
    have hm : m ≤ 2 := hm
    rw [hfence, readFrom_go (step_afterRun_quote hlong (by omega)),
      readFrom_go (step_quotes (by omega)), prepend_nil, prepend_nil]
    by_cases h2 : m = 2
    · rw [h2]
      exact readFrom_close step_lastQuote rest
    · rw [readFrom_go (step_quotes (by omega)), prepend_nil, readFrom_quotes (by omega) hrest]
      rfl

/-! ## The forms -/

/-- The text between the quotes. -/
def body (f : Form) (s : List Char) : List Char :=
  if f.escapes then escapeFrom f.long 0 s else s

/-- A form can hold a text: one without escapes needs that there is nothing to escape. -/
structure Suits (f : Form) (s : List Char) : Prop where
  quote : f.quote = if f.escapes then '"' else '\''
  control : f.escapes = false → ∀ c ∈ s, isControl c = false
  newline : f.escapes = false → '\n' ∈ s → f.long = true
  run : f.escapes = false → longestRun f.quote 0 s ≤ f.limit

/-- A body that a form can hold is read up to the fence. -/
theorem readFrom_body {s : List Char} (h : f.Suits s) {rest : List Char}
    (hrest : rest.head? ≠ some f.quote) :
    f.readFrom .body (f.body s ++ (f.fence ++ rest)) = some (s, rest) := by
  have hspells : ∃ m, m ≤ f.limit ∧ f.Spells 0 s (f.body s) m := by
    unfold body
    split
    · rename_i hescapes
      have hquote := h.quote
      rw [if_pos hescapes] at hquote
      exact spells_escapeFrom ⟨hescapes, hquote⟩ (Nat.zero_le _) s
    · rename_i hescapes
      have hescapes : f.escapes = false := by simpa using hescapes
      exact spells_bare hescapes (h.control hescapes) (h.newline hescapes) (h.run hescapes)
  obtain ⟨m, hm, out, hout, hread⟩ := hspells
  have hbody : (.body : Phase) = afterRun 0 := rfl
  rw [hbody, hread, readFrom_fence hm hrest, prepend, Option.map_some, ← hout]
  rfl

theorem exists_cons_of_escape? {bareQuote bareNewline : Bool} {e : List Char}
    (h : escape? bareQuote bareNewline c = some e) : ∃ e', e = '\\' :: e' := by
  unfold escape? at h
  split at h
  · split at h <;> cases h
    exact ⟨_, rfl⟩
  split at h
  · split at h <;> cases h
    exact ⟨_, rfl⟩
  iterate 6
    split at h
    · cases h
      exact ⟨_, rfl⟩
  cases h

theorem head?_escapeFrom {long : Bool} {n : Nat} {s : List Char}
    (hc : (escapeFrom long n s).head? = some c) :
    c ≠ '\r' ∧ (c = '\n' → '\n' ∈ s) ∧ (c = '"' → long = true) := by
  cases s with
  | nil => cases hc
  | cons d s =>
    rw [escapeFrom] at hc
    cases he : escape? (long && n < 2) long d with
    | some e =>
      obtain ⟨e', rfl⟩ := exists_cons_of_escape? he
      rw [he] at hc
      cases hc
      exact ⟨by decide, fun h => absurd h (by decide), fun h => absurd h (by decide)⟩
    | none =>
      obtain ⟨hbare, -, -, hcontrol⟩ := of_escape?_eq_none he
      rw [he] at hc
      cases hc
      refine ⟨ne_return_of_not_isControl hcontrol, fun h => h ▸ List.mem_cons_self, fun h => ?_⟩
      have hquote := hbare h
      rw [Bool.and_eq_true] at hquote
      exact hquote.1

/-- How a body starts: with nothing that could be taken for a part of the fence in front of it. -/
theorem head?_body {s : List Char} (h : f.Suits s) (hc : (f.body s).head? = some c) :
    c ≠ '\r' ∧ (c = '\n' → '\n' ∈ s) ∧ (c = f.quote → f.long = true) := by
  have hquote := h.quote
  unfold body at hc
  split at hc
  · rename_i hescapes
    rw [if_pos hescapes] at hquote
    rw [hquote]
    exact head?_escapeFrom hc
  · rename_i hescapes
    have hescapes : f.escapes = false := by simpa using hescapes
    cases s with
    | nil => cases hc
    | cons d s =>
      cases hc
      have hcontrol := h.control hescapes c List.mem_cons_self
      refine ⟨ne_return_of_not_isControl hcontrol, fun h => h ▸ List.mem_cons_self,
        fun hfirst => ?_⟩
      have hrun := h.run hescapes
      rw [longestRun, if_pos hfirst] at hrun
      have hone : 1 ≤ f.limit := Nat.le_trans (le_longestRun f.quote 1 s) hrun
      unfold limit at hone
      split at hone
      · assumption
      · omega

theorem dropNewline_of_head? {s : List Char} (hnewline : s.head? ≠ some '\n')
    (hreturn : s.head? ≠ some '\r') :
    dropNewline s = s := by
  unfold dropNewline
  split
  · exact absurd rfl hnewline
  · exact absurd rfl hreturn
  · rfl

theorem head?_body_fence {s rest : List Char} (h : f.Suits s)
    (hc : (f.body s ++ (f.fence ++ rest)).head? = some c) : c ≠ '\r' ∧ (c = '\n' → '\n' ∈ s) := by
  cases hb : f.body s with
  | nil =>
    have hfence : (f.body s ++ (f.fence ++ rest)).head? = some f.quote := by
      rw [hb, fence]
      split <;> rfl
    obtain rfl := Option.some.inj (hfence.symm.trans hc)
    rw [h.quote]
    split
    · exact ⟨by decide, fun h => absurd h (by decide)⟩
    · exact ⟨by decide, fun h => absurd h (by decide)⟩
  | cons d b =>
    rw [hb] at hc
    have hhead : (f.body s).head? = some c := by rw [hb]; exact hc
    obtain ⟨hreturn, hmem, -⟩ := head?_body h hhead
    exact ⟨hreturn, hmem⟩

theorem readQuoted_long {s : List Char} (h : f.Suits s) (hlong : f.long = true) (r : List Char) :
    readQuoted true (f.quote :: f.quote :: f.quote :: r) = f.readFrom .body (dropNewline r) := by
  obtain ⟨quote, long, escapes⟩ := f
  have hquote : quote = if escapes then '"' else '\'' := h.quote
  have hlong : long = true := hlong
  subst hquote hlong
  cases escapes <;> rfl

theorem readQuoted_short {s : List Char} (h : f.Suits s) (hshort : f.long = false) {r : List Char}
    (hr : ∀ r', r ≠ f.quote :: f.quote :: r') :
    readQuoted true (f.quote :: r) = f.readFrom .body r := by
  obtain ⟨quote, long, escapes⟩ := f
  have hquote : quote = if escapes then '"' else '\'' := h.quote
  have hshort : long = false := hshort
  subst hquote hshort
  -- The patterns with three quotes do not apply, the one with this quote does.
  cases escapes
  · have hr : ∀ r', r ≠ '\'' :: '\'' :: r' := hr
    show readQuoted true ('\'' :: r) = Form.literal.readFrom .body r
    unfold readQuoted
    split <;> simp_all
  · have hr : ∀ r', r ≠ '"' :: '"' :: r' := hr
    show readQuoted true ('"' :: r) = Form.basic.readFrom .body r
    unfold readQuoted
    split <;> simp_all

/-- The newline behind a long fence is dropped, and no other. -/
theorem dropNewline_body {s : List Char} (h : f.Suits s) (rest : List Char) :
    dropNewline ((if s.contains '\n' then ['\n'] else []) ++ (f.body s ++ (f.fence ++ rest))) =
      f.body s ++ (f.fence ++ rest) := by
  split
  · rfl
  · rename_i hnewline
    rw [List.nil_append]
    refine dropNewline_of_head? (fun hhead => ?_) (fun hhead => (head?_body_fence h hhead).1 rfl)
    exact hnewline (by simpa using (head?_body_fence h hhead).2 rfl)

/-- **A text is read back from every form that can hold it.** -/
theorem readQuoted_write {s : List Char} (h : f.Suits s) {rest : List Char}
    (hrest : rest.head? ≠ some f.quote) :
    readQuoted true (f.write s ++ rest) = some (s, rest) := by
  have hbody := readFrom_body h hrest
  cases hlong : f.long with
  | true =>
    have hwrite : f.write s ++ rest = f.quote :: f.quote :: f.quote ::
        ((if s.contains '\n' then ['\n'] else []) ++ (f.body s ++ (f.fence ++ rest))) := by
      simp [write, fence, hlong, body]
    rw [hwrite, readQuoted_long h hlong, dropNewline_body h, hbody]
  | false =>
    have hwrite : f.write s ++ rest = f.quote :: (f.body s ++ (f.fence ++ rest)) := by
      simp [write, fence, hlong, body]
    rw [hwrite, readQuoted_short h hlong, hbody]
    intro r' hr'
    cases hb : f.body s with
    | nil =>
      simp only [hb, fence, hlong, Bool.false_eq_true, if_false, List.replicate_one,
        List.nil_append, List.cons_append] at hr'
      exact hrest (by rw [(List.cons.inj hr').2]; rfl)
    | cons c b =>
      obtain ⟨-, -, hquote⟩ := head?_body h (c := c) (by rw [hb]; rfl)
      rw [hb] at hr'
      have hlong' := hquote (List.cons.inj hr').1
      rw [hlong] at hlong'
      cases hlong'

/-! ## The choice of a form -/

theorem suits_of_escapes (hf : f.Escaping) (s : List Char) : f.Suits s where
  quote := by rw [hf.quote, hf.escapes]; rfl
  control h := by rw [hf.escapes] at h; cases h
  newline h := by rw [hf.escapes] at h; cases h
  run h := by rw [hf.escapes] at h; cases h

/-- The form that is chosen for a text can hold it. -/
theorem suits_ofText (s : List Char) : (ofText s).Suits s := by
  have hcontrol (h : (!s.any isControl) = true) : ∀ c ∈ s, isControl c = false := by
    intro c hc
    simpa using (List.any_eq_false.1 (by simpa using h)) c hc
  unfold ofText
  dsimp only
  split
  · exact suits_of_escapes ⟨rfl, rfl⟩ s
  split
  · rename_i h
    obtain ⟨control, singles, newline⟩ := h
    refine ⟨rfl, fun _ => hcontrol control, fun _ hmem => ?_, fun _ => Nat.le_of_eq singles⟩
    simp [hmem] at newline
  split
  · exact suits_of_escapes ⟨rfl, rfl⟩ s
  split
  · rename_i h
    exact ⟨rfl, fun _ => hcontrol h.1, fun _ _ => rfl, fun _ => h.2⟩
  split
  · exact suits_of_escapes ⟨rfl, rfl⟩ s
  · exact suits_of_escapes ⟨rfl, rfl⟩ s

end Form

/-- What comes after a quoted string is no quote. -/
structure Unquoted (rest : List Char) : Prop where
  double : rest.head? ≠ some '"'
  single : rest.head? ≠ some '\''

theorem unquoted_cons {c : Char} (hd : c ≠ '"') (hs : c ≠ '\'') (r : List Char) :
    Unquoted (c :: r) :=
  ⟨fun h => hd (Option.some.inj h), fun h => hs (Option.some.inj h)⟩

/-- **Every text is read back from its quoted form.** -/
theorem readQuoted_writeQuoted (s : List Char) {rest : List Char} (h : Unquoted rest) :
    readQuoted true (writeQuoted s ++ rest) = some (s, rest) := by
  have hsuits := Form.suits_ofText s
  refine Form.readQuoted_write hsuits ?_
  rw [hsuits.quote]
  split
  · exact h.double
  · exact h.single

/-- A quoted form starts with a quote. -/
theorem exists_cons_writeQuoted (s : List Char) :
    ∃ c r, writeQuoted s = c :: r ∧ (c = '"' ∨ c = '\'') := by
  have hquote := (Form.suits_ofText s).quote
  have hfence : ∃ r, (Form.ofText s).fence = (Form.ofText s).quote :: r := by
    unfold Form.fence
    split
    · exact ⟨_, rfl⟩
    · exact ⟨_, rfl⟩
  obtain ⟨r, hr⟩ := hfence
  refine ⟨_, _, by rw [writeQuoted, Form.write, hr]; rfl, ?_⟩
  rw [hquote]
  split
  · exact .inl rfl
  · exact .inr rfl

end CommitGate.Toml

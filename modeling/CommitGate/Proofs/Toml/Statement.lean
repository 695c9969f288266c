import CommitGate.Proofs.Toml.Bare
import CommitGate.Proofs.Toml.Quoted
import CommitGate.Toml.Statement
import CommitGate.Toml.Writer

/-!
# Written blocks are read back

A text says some statements when the reader, put in front of it, comes out behind it with these
statements and enough fuel for what follows. Each line that is written says one statement or none,
and what lines say is put together one after the other.

Results:

* `readValue_write`: a value is read back from what is written for it.
* `says_writeBlocks`: written blocks say their headers and pairs in order.
* `readStatements_of_says`: they are the statements of the whole text.
-/

namespace CommitGate.Toml

/-! ## Characters that stand out -/

/-- A character that starts something: it is neither skipped nor the end of an array. -/
structure Starter (c : Char) : Prop where
  blank : isInlineBlank c = false
  newline : c ≠ '\n'
  carriage : c ≠ '\r'
  comment : c ≠ '#'
  bracket : c ≠ ']'

theorem skipBlanks_cons {c : Char} (h : isInlineBlank c = false) (r : List Char) :
    skipBlanks (c :: r) = c :: r := by
  unfold skipBlanks
  rw [List.dropWhile_cons_of_neg (by simp [h])]

theorem skipBlanks_blank (r : List Char) : skipBlanks (' ' :: r) = skipBlanks r := rfl

theorem skipSpaceFrom_cons {c : Char} (hb : isInlineBlank c = false) (hn : c ≠ '\n') (hr : c ≠ '\r')
    (hc : c ≠ '#') (r : List Char) : skipSpaceFrom false (c :: r) = some (c :: r) := by
  unfold skipSpaceFrom
  split
  · simp_all
  · simp_all
  · simp_all
  · simp_all

theorem Starter.skipSpace {c : Char} (h : Starter c) (r : List Char) :
    skipSpace (c :: r) = some (c :: r) :=
  skipSpaceFrom_cons h.blank h.newline h.carriage h.comment r

theorem Starter.skipIndent {c : Char} (h : Starter c) (r : List Char) :
    Toml.skipSpace ('\n' :: ("    ".toList ++ c :: r)) = some (c :: r) := by
  have hspace : Toml.skipSpace ('\n' :: ("    ".toList ++ c :: r)) =
      skipSpaceFrom false (c :: r) := by
    simp [Toml.skipSpace, skipSpaceFrom, isInlineBlank]
  rw [hspace]
  exact h.skipSpace r

theorem starter_quote {c : Char} (h : c = '"' ∨ c = '\'') : Starter c := by
  rcases h with rfl | rfl
  · exact ⟨by decide, by decide, by decide, by decide, by decide⟩
  · exact ⟨by decide, by decide, by decide, by decide, by decide⟩

/-! ## Scalars -/

theorem readQuoted_eq_none (long : Bool) {c : Char} (hd : c ≠ '"') (hs : c ≠ '\'') (r : List Char) :
    readQuoted long (c :: r) = none := by
  unfold readQuoted
  split <;> simp_all

theorem readScalar_writeQuoted (s : String) {rest : List Char} (h : Unquoted rest) :
    readScalar (writeQuoted s.toList ++ rest) = some (.text s, rest) := by
  unfold readScalar
  rw [readQuoted_writeQuoted s.toList h]
  simp only [String.ofList_toList]

theorem readValue_scalar (depth : Nat) {c : Char} (hb : c ≠ '[') (hc : c ≠ '\x7b') (r : List Char) :
    readValue depth (c :: r) = readScalar (c :: r) := by
  cases depth with
  | zero => rfl
  | succ depth =>
    unfold readValue
    split <;> simp_all

theorem readValue_writeQuoted (depth : Nat) (s : String) {rest : List Char} (h : Unquoted rest) :
    readValue depth (writeQuoted s.toList ++ rest) = some (.text s, rest) := by
  obtain ⟨c, r, hr, hc⟩ := exists_cons_writeQuoted s.toList
  have hscalar := readScalar_writeQuoted s h
  rw [hr] at hscalar ⊢
  rw [List.cons_append, readValue_scalar depth, ← List.cons_append, hscalar]
  · rcases hc with rfl | rfl <;> decide
  · rcases hc with rfl | rfl <;> decide

/-! ## Arrays -/

section Items

variable {readItem : List Char → Option (Value × List Char)} {fuel : Nat} {c : Char}
    {s r r' : List Char} {v : Value}

theorem readItems_end (h : skipSpace s = some (']' :: r)) :
    readItems readItem (fuel + 1) s = some ([], r) := by
  rw [readItems, h]
  rfl

theorem readItems_last (h : skipSpace s = some (c :: r)) (hc : c ≠ ']')
    (hitem : readItem (c :: r) = some (v, ']' :: r')) :
    readItems readItem (fuel + 1) s = some ([v], r') := by
  have hend : skipSpace (']' :: r') = some (']' :: r') := rfl
  rw [readItems, h]
  simp [hc, hitem, hend]

theorem readItems_comma (h : skipSpace s = some (c :: r)) (hc : c ≠ ']')
    (hitem : readItem (c :: r) = some (v, ',' :: r')) :
    readItems readItem (fuel + 1) s =
      (readItems readItem fuel r').map fun p => (v :: p.1, p.2) := by
  have hcomma : skipSpace (',' :: r') = some (',' :: r') := rfl
  rw [readItems, h]
  simp [hc, hitem, hcomma]
  cases readItems readItem fuel r' <;> rfl

end Items

/-- The lines of an array behind the end of a line, up to its bracket. -/
def arrayLines (ss : List String) (r : List Char) : List Char :=
  '\n' :: (ss.flatMap (fun s => "    ".toList ++ writeQuoted s.toList ++ [',', '\n']) ++ ']' :: r)

theorem arrayLines_cons (s : String) (ss : List String) (r : List Char) :
    arrayLines (s :: ss) r = '\n' ::
      ("    ".toList ++ (writeQuoted s.toList ++ ',' :: arrayLines ss r)) := by
  simp [arrayLines]

theorem readItems_arrayLines (depth : Nat) (ss : List String) (r : List Char) {fuel : Nat}
    (hfuel : ss.length < fuel) :
    readItems (readValue depth) fuel (arrayLines ss r) = some (ss.map .text, r) := by
  induction ss generalizing fuel with
  | nil =>
    obtain ⟨fuel, rfl⟩ : ∃ n, fuel = n + 1 := ⟨fuel - 1, by omega⟩
    exact readItems_end rfl
  | cons s ss ih =>
    rw [List.length_cons] at hfuel
    obtain ⟨fuel, rfl⟩ : ∃ n, fuel = n + 1 := ⟨fuel - 1, by omega⟩
    have hitem := readValue_writeQuoted depth s
        (unquoted_cons (c := ',') (by decide) (by decide) (arrayLines ss r))
    obtain ⟨c, q, hq, hc⟩ := exists_cons_writeQuoted s.toList
    rw [arrayLines_cons]
    rw [hq] at hitem ⊢
    rw [List.cons_append] at hitem ⊢
    rw [readItems_comma ((starter_quote hc).skipIndent _) (starter_quote hc).bracket hitem,
      ih (by omega)]
    rfl

theorem length_arrayLines (ss : List String) (r : List Char) :
    ss.length < (arrayLines ss r).length := by
  induction ss with
  | nil => simp [arrayLines]
  | cons s ss ih =>
    rw [arrayLines_cons]
    simp only [List.length_cons, List.length_append]
    omega

theorem readValue_bracket (depth : Nat) (r : List Char) :
    readValue (depth + 1) ('[' :: r) =
      (readItems (readValue depth) (r.length + 1) r).map fun p => (.array p.1 false, p.2) := by
  have hread : readValue (depth + 1) ('[' :: r) =
      (readItems (readValue depth) (r.length + 1) r).bind fun p => some (.array p.1 false, p.2) :=
        rfl
  rw [hread]
  cases readItems (readValue depth) (r.length + 1) r <;> rfl

/-- An array of texts is read back from what is written for it. -/
theorem readValue_writeArray (depth : Nat) (ss : List String) (r : List Char) :
    readValue (depth + 1) (writeArray (ss.map fun s => writeQuoted s.toList) ++ r) =
      some (.array (ss.map .text) false, r) := by
  match ss with
  | [] => rfl
  | [s] =>
    have hitem := readValue_writeQuoted depth s (unquoted_cons (c := ']') (by decide) (by decide) r)
    obtain ⟨c, q, hq, hc⟩ := exists_cons_writeQuoted s.toList
    have hwrite : writeArray ([s].map fun s => writeQuoted s.toList) ++ r =
        '[' :: (writeQuoted s.toList ++ ']' :: r) := by
      simp [writeArray]
    rw [hwrite, readValue_bracket]
    rw [hq, List.cons_append] at hitem ⊢
    rw [readItems_last ((starter_quote hc).skipSpace _) (starter_quote hc).bracket hitem]
    rfl
  | s :: s' :: ss =>
    have hwrite : writeArray ((s :: s' :: ss).map fun s => writeQuoted s.toList) ++ r =
        '[' :: arrayLines (s :: s' :: ss) r := by
      simp [writeArray, arrayLines, List.flatMap_map]
    have hlength := length_arrayLines (s :: s' :: ss) r
    rw [hwrite, readValue_bracket, readItems_arrayLines depth _ r (by omega)]
    rfl

/-! ## Values -/

/-- The value that is read back from a plain one. -/
def Plain.value : Plain → Value
  | .text s => .text s
  | .texts ss => .array (ss.map .text) false
  | .natural n => .integer n
  | .boolean b => .boolean b

/-- The numbers of a plain value fit 64 bits. -/
def Plain.Fits : Plain → Prop
  | .natural n => n < integerBound
  | _ => True

/-- A character that starts a word, and nothing in quotes or brackets. -/
structure WordStart (c : Char) : Prop where
  double : c ≠ '"'
  single : c ≠ '\''
  bracket : c ≠ '['
  brace : c ≠ '\x7b'

/-- A bare value as a value. -/
def Bare.value : Bare → Value
  | .boolean b => .boolean b
  | .integer n => .integer n
  | .float t => .float (String.ofList t)
  | .moment t => .moment (String.ofList t)

theorem readValue_word (depth : Nat) {c : Char} {s : List Char} (hc : WordStart c)
    (hword : ∀ d ∈ c :: s, isWordChar d = true) {b : Bare} (h : Bare.ofWord? (c :: s) = some b)
    (r : List Char) :
    readValue depth (c :: s ++ '\n' :: r) = some (b.value, '\n' :: r) := by
  have hquoted := readQuoted_eq_none true hc.double hc.single (s ++ '\n' :: r)
  have hbare := readBare_word hword r
  rw [h] at hbare
  rw [List.cons_append] at hbare ⊢
  rw [readValue_scalar depth hc.bracket hc.brace, readScalar, hquoted, hbare]
  cases b <;> rfl

theorem readValue_boolean (depth : Nat) (b : Bool) (r : List Char) :
    readValue depth ((Plain.boolean b).write ++ '\n' :: r) = some (.boolean b, '\n' :: r) := by
  have hword := ofWord?_boolean b
  cases b with
  | true =>
    exact readValue_word depth ⟨by decide, by decide, by decide, by decide⟩
      (List.all_eq_true.1 (by decide)) hword r
  | false =>
    exact readValue_word depth ⟨by decide, by decide, by decide, by decide⟩
      (List.all_eq_true.1 (by decide)) hword r

theorem readValue_natural (depth : Nat) {n : Nat} (h : n < integerBound) (r : List Char) :
    readValue depth ((Plain.natural n).write ++ '\n' :: r) = some (.integer n, '\n' :: r) := by
  have hword := ofWord?_digitsOfNat h
  have hdigits := digits_digitsOfNat n
  show readValue depth (Text.digitsOfNat n ++ '\n' :: r) = _
  cases hs : Text.digitsOfNat n with
  | nil => exact absurd hs Nat.toDigits_ne_nil
  | cons c s =>
    rw [hs] at hword hdigits
    have hne {d : Char} (hd : d.isDigit = false) : c ≠ d := hdigits.ne List.mem_cons_self hd
    refine readValue_word depth ⟨hne (by decide), hne (by decide), hne (by decide), hne (by decide)⟩
      ?_ hword r
    intro d hd
    simp [isWordChar, Char.isAlphanum, hdigits d hd]

/-- **A value is read back from what is written for it.** -/
theorem readValue_write (depth : Nat) {v : Plain} (h : v.Fits) (r : List Char) :
    readValue (depth + 2) (v.write ++ '\n' :: r) = some (v.value, '\n' :: r) := by
  cases v with
  | text s => exact readValue_writeQuoted (depth + 2) s (unquoted_cons (by decide) (by decide) r)
  | texts ss => exact readValue_writeArray (depth + 1) ss ('\n' :: r)
  | natural n => exact readValue_natural (depth + 2) h r
  | boolean b => exact readValue_boolean (depth + 2) b r

/-- What is written for a value starts with no blank. -/
theorem skipBlanks_write (v : Plain) (r : List Char) :
    skipBlanks (v.write ++ r) = v.write ++ r := by
  have hstart : ∃ c s, v.write = c :: s ∧ isInlineBlank c = false := by
    cases v with
    | text s =>
      obtain ⟨c, q, hq, hc⟩ := exists_cons_writeQuoted s.toList
      exact ⟨c, q, hq, (starter_quote hc).blank⟩
    | texts ss =>
      match ss with
      | [] => exact ⟨'[', _, rfl, rfl⟩
      | [s] => exact ⟨'[', _, rfl, rfl⟩
      | s :: s' :: ss => exact ⟨'[', _, rfl, rfl⟩
    | natural n =>
      have hdigits := digits_digitsOfNat n
      show ∃ c s, Text.digitsOfNat n = c :: s ∧ isInlineBlank c = false
      cases hs : Text.digitsOfNat n with
      | nil => exact absurd hs Nat.toDigits_ne_nil
      | cons c s =>
        rw [hs] at hdigits
        have hspace := hdigits.ne List.mem_cons_self (d := ' ') (by decide)
        have htab := hdigits.ne List.mem_cons_self (d := '\t') (by decide)
        exact ⟨c, s, rfl, by simp [isInlineBlank, hspace, htab]⟩
    | boolean b => cases b <;> exact ⟨_, _, rfl, by decide⟩
  obtain ⟨c, s, hs, hc⟩ := hstart
  rw [hs, List.cons_append, skipBlanks_cons hc]

/-! ## Keys -/

/-- A name that is written without quotes. -/
structure IsKey (k : String) : Prop where
  nonempty : k.toList ≠ []
  chars : ∀ c ∈ k.toList, isKeyChar c = true

instance (k : String) : Decidable (IsKey k) :=
  decidable_of_iff (k.toList ≠ [] ∧ k.toList.all isKeyChar = true)
    ⟨fun h => ⟨h.1, List.all_eq_true.1 h.2⟩, fun h => ⟨h.nonempty, List.all_eq_true.2 h.chars⟩⟩

theorem isKeyChar_ne {c d : Char} (h : isKeyChar c = true) (hd : isKeyChar d = false) : c ≠ d := by
  rintro rfl
  rw [h] at hd
  cases hd

theorem readPart_key {k : String} (h : IsKey k) {c : Char} (hc : isKeyChar c = false)
    (r : List Char) :
    readPart (k.toList ++ c :: r) = some (k, c :: r) := by
  have htake : (k.toList ++ c :: r).takeWhile isKeyChar = k.toList := by
    rw [List.takeWhile_append_of_pos h.chars, List.takeWhile_cons_of_neg (by simp [hc]),
      List.append_nil]
  have hdrop : (k.toList ++ c :: r).dropWhile isKeyChar = c :: r := by
    rw [List.dropWhile_append_of_pos h.chars, List.dropWhile_cons_of_neg (by simp [hc])]
  have hquoted : readQuoted false (k.toList ++ c :: r) = none := by
    cases hk : k.toList with
    | nil => exact absurd hk h.nonempty
    | cons d s =>
      have hd := h.chars d (by rw [hk]; exact List.mem_cons_self)
      exact readQuoted_eq_none false (isKeyChar_ne hd (by decide)) (isKeyChar_ne hd (by decide)) _
  unfold readPart
  rw [hquoted, htake, hdrop]
  simp only [if_neg h.nonempty, String.ofList_toList]

theorem skipBlanks_key {k : String} (h : IsKey k) (r : List Char) :
    skipBlanks (k.toList ++ r) = k.toList ++ r := by
  cases hk : k.toList with
  | nil => exact absurd hk h.nonempty
  | cons c s =>
    have hc := h.chars c (by rw [hk]; exact List.mem_cons_self)
    have hspace := isKeyChar_ne (d := ' ') hc (by decide)
    have htab := isKeyChar_ne (d := '\t') hc (by decide)
    exact skipBlanks_cons (by simp [isInlineBlank, hspace, htab]) _

/-- A key is read up to the sign that follows it. -/
theorem readPath_key {k : String} (h : IsKey k) (parts : Nat) {c d : Char} {r r' : List Char}
    (hc : isKeyChar c = false) (hskip : skipBlanks (c :: r) = d :: r') (hd : d ≠ '.') :
    readPath (parts + 1) (k.toList ++ c :: r) = some ([k], d :: r') := by
  rw [readPath, skipBlanks_key h, readPart_key h hc]
  simp [hskip, hd]

/-! ## Lines -/

/-- A pair that can be read back. -/
structure Pair.Good (p : Pair) : Prop where
  key : IsKey p.1
  fits : p.2.Fits

/-- What a pair says. -/
def Pair.statement (p : Pair) : Statement :=
  .pair [p.1] p.2.value

theorem writePair_append (p : Pair) (r : List Char) :
    writePair p ++ r = p.1.toList ++ ' ' :: '=' :: ' ' :: (p.2.write ++ '\n' :: r) := by
  simp [writePair]

theorem readPair_writePair {p : Pair} (h : p.Good) (r : List Char) :
    readPair (readValue maxDepth) (writePair p ++ r) = some (([p.1], p.2.value), '\n' :: r) := by
  have hpath : readPath maxDepth (writePair p ++ r) =
      some ([p.1], '=' :: ' ' :: (p.2.write ++ '\n' :: r)) := by
    rw [writePair_append]
    exact readPath_key h.key 78 (by decide) rfl (by decide)
  have hvalue : readValue maxDepth (skipBlanks (' ' :: (p.2.write ++ '\n' :: r))) =
      some (p.2.value, '\n' :: r) := by
    rw [skipBlanks_blank, skipBlanks_write]
    exact readValue_write 77 h.fits r
  have hafter : after? '=' ('=' :: ' ' :: (p.2.write ++ '\n' :: r)) =
      some (' ' :: (p.2.write ++ '\n' :: r)) := rfl
  have hblank : skipBlanks ('\n' :: r) = '\n' :: r := rfl
  unfold readPair
  simp [hpath, hafter, hvalue, hblank]

theorem readStatement_writePair {p : Pair} (h : p.Good) (r : List Char) :
    readStatement (writePair p ++ r) = some (p.statement, r) := by
  have hpair := readPair_writePair h r
  have hhead : ∀ s, writePair p ++ r ≠ '[' :: s := by
    intro s hs
    rw [writePair_append] at hs
    cases hk : p.1.toList with
    | nil => exact h.key.nonempty hk
    | cons c t =>
      rw [hk] at hs
      have hc := h.key.chars c (by rw [hk]; exact List.mem_cons_self)
      exact isKeyChar_ne hc (by decide) (List.cons.inj hs).1
  unfold readStatement
  split
  · rename_i hs
    exact absurd hs (hhead _)
  · rename_i hs
    exact absurd hs (hhead _)
  · rw [hpair]
    rfl

theorem readStatement_table {k : String} (h : IsKey k) (r : List Char) :
    readStatement ('[' :: (k.toList ++ ']' :: '\n' :: r)) = some (.table [k], r) := by
  have hpath : readPath maxDepth (k.toList ++ ']' :: '\n' :: r) = some ([k], ']' :: '\n' :: r) :=
    readPath_key h 78 (by decide) rfl (by decide)
  have hhead : ∀ s, k.toList ++ ']' :: '\n' :: r ≠ '[' :: s := by
    intro s hs
    cases hk : k.toList with
    | nil => exact h.nonempty hk
    | cons c t =>
      rw [hk] at hs
      have hc := h.chars c (by rw [hk]; exact List.mem_cons_self)
      exact isKeyChar_ne hc (by decide) (List.cons.inj hs).1
  unfold readStatement
  split
  · rename_i hs
    exact absurd (List.cons.inj hs).2 (hhead _)
  · rename_i hs
    rw [← (List.cons.inj hs).2, hpath]
    rfl
  · rename_i hs
    exact absurd rfl (hs _)

theorem readStatement_item {k : String} (h : IsKey k) (r : List Char) :
    readStatement ('[' :: '[' :: (k.toList ++ ']' :: ']' :: '\n' :: r)) = some (.item [k], r) := by
  have hpath : readPath maxDepth (k.toList ++ ']' :: ']' :: '\n' :: r) =
      some ([k], ']' :: ']' :: '\n' :: r) :=
    readPath_key h 78 (by decide) rfl (by decide)
  unfold readStatement
  simp only [hpath]
  rfl

/-! ## Texts -/

/-- In front of any text, this one is read as the statements, and enough fuel is left for what
follows. -/
def Says (s : List Char) (sts : List Statement) : Prop :=
  ∀ fuel r, s.length + r.length ≤ fuel →
    ∃ fuel', r.length ≤ fuel' ∧ readStatementsFrom fuel (s ++ r) =
      (readStatementsFrom fuel' r).map (sts ++ ·)

theorem Says.nil : Says [] [] := by
  intro fuel r hfuel
  refine ⟨fuel, by simpa using hfuel, ?_⟩
  rw [List.nil_append]
  cases readStatementsFrom fuel r <;> rfl

theorem Says.append {s s' : List Char} {sts sts' : List Statement} (h : Says s sts)
    (h' : Says s' sts') :
    Says (s ++ s') (sts ++ sts') := by
  intro fuel r hfuel
  rw [List.length_append] at hfuel
  obtain ⟨fuel₁, hfuel₁, hread₁⟩ := h fuel (s' ++ r) (by rw [List.length_append]; omega)
  obtain ⟨fuel₂, hfuel₂, hread₂⟩ := h' fuel₁ r (by rwa [List.length_append] at hfuel₁)
  refine ⟨fuel₂, hfuel₂, ?_⟩
  rw [List.append_assoc, hread₁, hread₂]
  cases readStatementsFrom fuel₂ r <;> simp

theorem Says.flatMap {α : Type} {f : α → List Char} {g : α → List Statement} {xs : List α}
    (h : ∀ x ∈ xs, Says (f x) (g x)) : Says (xs.flatMap f) (xs.flatMap g) := by
  induction xs with
  | nil => exact .nil
  | cons x xs ih =>
    rw [List.flatMap_cons, List.flatMap_cons]
    exact (h x List.mem_cons_self).append (ih fun y hy => h y (List.mem_cons_of_mem x hy))

theorem Starter.lineEnd? {c : Char} (h : Starter c) (r : List Char) : lineEnd? (c :: r) = none := by
  have hcomment : skipComment (c :: r) = c :: r := by
    unfold skipComment
    split
    · rename_i heq
      exact absurd (List.cons.inj heq).1 h.comment
    · rfl
  have hnewline : newline? (c :: r) = none := by
    unfold newline?
    split
    · rename_i heq
      exact absurd (List.cons.inj heq).1 h.newline
    · rename_i heq
      exact absurd (List.cons.inj heq).1 h.carriage
    · rfl
  unfold Toml.lineEnd?
  rw [skipBlanks_cons h.blank, hcomment]
  exact hnewline

/-- A line that holds a statement. -/
theorem Says.line {c : Char} {s : List Char} {st : Statement} (hc : Starter c)
    (h : ∀ r, readStatement (c :: s ++ r) = some (st, r)) : Says (c :: s) [st] := by
  intro fuel r hfuel
  rw [List.length_cons] at hfuel
  obtain ⟨fuel, rfl⟩ : ∃ n, fuel = n + 1 := ⟨fuel - 1, by omega⟩
  refine ⟨fuel, by omega, ?_⟩
  have hstatement := h r
  rw [List.cons_append] at hstatement ⊢
  have hstep : readStatementsFrom (fuel + 1) (c :: (s ++ r)) =
      (readStatement (skipBlanks (c :: (s ++ r)))).bind fun x =>
        (readStatementsFrom fuel x.2).bind fun sts => some (x.1 :: sts) := by
    simp only [readStatementsFrom, hc.lineEnd?]
    rfl
  rw [hstep, skipBlanks_cons hc.blank, hstatement, Option.bind_some]
  cases readStatementsFrom fuel r <;> rfl

/-- An empty line. -/
theorem Says.empty : Says ['\n'] [] := by
  intro fuel r hfuel
  rw [List.length_singleton] at hfuel
  obtain ⟨fuel, rfl⟩ : ∃ n, fuel = n + 1 := ⟨fuel - 1, by omega⟩
  refine ⟨fuel, by omega, ?_⟩
  have hstep : readStatementsFrom (fuel + 1) ('\n' :: r) = readStatementsFrom fuel r := rfl
  rw [List.singleton_append, hstep]
  cases readStatementsFrom fuel r <;> rfl

/-! ## Blocks -/

/-- What a block says. -/
def Block.statements : Block → List Statement
  | .pairs ps => ps.map Pair.statement
  | .table name ps => .table [name] :: ps.map Pair.statement
  | .item name ps => .item [name] :: ps.map Pair.statement

/-- A block that can be read back. -/
def Block.Good : Block → Prop
  | .pairs ps => ∀ p ∈ ps, Pair.Good p
  | .table name ps | .item name ps => IsKey name ∧ ∀ p ∈ ps, Pair.Good p

theorem starter_keyChar {c : Char} (h : isKeyChar c = true) : Starter c := by
  have hspace := isKeyChar_ne (d := ' ') h (by decide)
  have htab := isKeyChar_ne (d := '\t') h (by decide)
  exact ⟨by simp [isInlineBlank, hspace, htab], isKeyChar_ne h (by decide),
    isKeyChar_ne h (by decide), isKeyChar_ne h (by decide), isKeyChar_ne h (by decide)⟩

theorem starter_bracket : Starter '[' :=
  ⟨by decide, by decide, by decide, by decide, by decide⟩

theorem says_writePair {p : Pair} (h : p.Good) : Says (writePair p) [p.statement] := by
  have hread := readStatement_writePair h
  cases hk : p.1.toList with
  | nil => exact absurd hk h.key.nonempty
  | cons c s =>
    have hc := h.key.chars c (by rw [hk]; exact List.mem_cons_self)
    have hwrite : writePair p = c :: (s ++ [' ', '=', ' '] ++ p.2.write ++ ['\n']) := by
      rw [writePair, hk]
      rfl
    rw [hwrite] at hread ⊢
    exact .line (starter_keyChar hc) hread

theorem says_pairs {ps : List Pair} (h : ∀ p ∈ ps, Pair.Good p) :
    Says (ps.flatMap writePair) (ps.map Pair.statement) := by
  rw [List.map_eq_flatMap]
  exact .flatMap fun p hp => says_writePair (h p hp)

theorem Block.says_write {b : Block} (h : b.Good) : Says b.write b.statements := by
  cases b with
  | pairs ps => exact says_pairs h
  | table name ps =>
    have hline : Says ('[' :: (name.toList ++ [']', '\n'])) [.table [name]] := by
      refine .line starter_bracket fun r => ?_
      have hread := readStatement_table h.1 r
      simpa using hread
    exact hline.append (says_pairs h.2)
  | item name ps =>
    have hline : Says ('[' :: '[' :: (name.toList ++ [']', ']', '\n'])) [.item [name]] := by
      refine .line starter_bracket fun r => ?_
      have hread := readStatement_item h.1 r
      simpa using hread
    exact hline.append (says_pairs h.2)

/-- **Written blocks say their headers and pairs in order.** -/
theorem says_writeBlocks {bs : List Block} (h : ∀ b ∈ bs, b.Good) :
    Says (writeBlocks bs) (bs.flatMap Block.statements) := by
  unfold writeBlocks
  induction bs with
  | nil => exact .nil
  | cons b bs ih =>
    have hfirst := Block.says_write (h b List.mem_cons_self)
    have hrest := ih fun b' hb' => h b' (List.mem_cons_of_mem b hb')
    cases bs with
    | nil => simpa using hfirst.append hrest
    | cons b' bs =>
      rw [List.map_cons, List.map_cons, List.intercalate_cons_cons, List.append_assoc]
      exact hfirst.append (Says.empty.append hrest)

theorem head?_writeBlocks {b : Block} {c : Char} {s : List Char} (h : b.write = c :: s)
    (bs : List Block) :
    (writeBlocks (b :: bs)).head? = some c := by
  unfold writeBlocks
  cases bs with
  | nil => rw [List.map_singleton, List.intercalate_singleton, h, List.head?_cons]
  | cons b' bs =>
    rw [List.map_cons, List.map_cons, List.intercalate_cons_cons, h]
    rfl

/-- What a whole text says are its statements. -/
theorem readStatements_of_says {s : List Char} {sts : List Statement} (h : Says s sts)
    (hmark : s.head? ≠ some '\uFEFF') :
    readStatements s = some sts := by
  obtain ⟨fuel, -, hread⟩ := h s.length [] (by simp)
  have hnil : readStatementsFrom fuel [] = some [] := by
    cases fuel <;> rfl
  rw [List.append_nil, hnil, Option.map_some, List.append_nil] at hread
  unfold readStatements
  rw [if_neg hmark]
  exact hread

end CommitGate.Toml

import CommitGate.Json
import CommitGate.Proofs.Toml.Bare

/-!
# JSON texts are read back

The reader takes the grammar of JSON for numbers without sign, fraction and exponent, strings,
arrays and objects. White space may stand around every token; no comma follows the last element; a
number has no zero in front of it; control characters stand in a string only as escapes, and a
character outside the basic plane is escaped as two code units. Whatever is left of the grammar, the
values `true`, `false` and `null` among it, is not read.

The reader knows nothing of how values are written, so that a text that it reads is well-formed.

Results:

* `readString_quoted`: a string is read back, whatever characters it holds.
* `readValue_write`: a value is read up to its end, at every depth and before every text that does
  not go on with a digit.
* `read?_render`: the text of a value is well-formed and gives the value back.
-/

namespace CommitGate.Json

open Toml (Digits digits_digitsOfNat head?_toDigits)

/-! ## The reader -/

/-- A character that may stand between two tokens. -/
def isSpace (c : Char) : Bool :=
  c = ' ' || c = '\t' || c = '\n' || c = '\r'

/-- What follows the white space in front. -/
def skipSpace (s : List Char) : List Char :=
  s.dropWhile isSpace

/-- Reads a number. -/
def readNatural (s : List Char) : Option (Nat × List Char) :=
  let digits := s.takeWhile Char.isDigit
  if digits = [] ∨ digits.head? = some '0' ∧ digits ≠ ['0'] then none
  else some (Text.natOfDigits 10 digits, s.dropWhile Char.isDigit)

/-- The character that a letter after a backslash stands for. -/
def escapedChar? : Char → Option Char
  | '"' => some '"'
  | '\\' => some '\\'
  | '/' => some '/'
  | 'b' => some '\x08'
  | 'f' => some '\x0c'
  | 'n' => some '\n'
  | 'r' => some '\r'
  | 't' => some '\t'
  | _ => none

/-- Reads a code unit, four digits in base sixteen. -/
def readUnit : List Char → Option (Nat × List Char)
  | a :: b :: c :: d :: r => do
    let a ← Text.hexValue? a
    let b ← Text.hexValue? b
    let c ← Text.hexValue? c
    let d ← Text.hexValue? d
    some (((a * 16 + b) * 16 + c) * 16 + d, r)
  | _ => none

/-- Reads the code units after a backslash and the letter for them: one that is a code point, or the
two halves of a code point. -/
def readCode (s : List Char) : Option (Char × List Char) := do
  let (n, r) ← readUnit s
  if n.isValidChar then some (Char.ofNat n, r)
  else
    match r with
    | '\\' :: 'u' :: r => do
      let (m, r) ← readUnit r
      if n < 0xDC00 ∧ 0xDC00 ≤ m ∧ m < 0xE000 then
        some (Char.ofNat (0x10000 + (n - 0xD800) * 0x400 + (m - 0xDC00)), r)
      else none
    | _ => none

/-- Reads one character of a string. -/
def readCharacter : List Char → Option (Char × List Char)
  | '\\' :: c :: r => if c = 'u' then readCode r else (escapedChar? c).map (·, r)
  | ['\\'] => none
  | c :: r => if c.toNat < 32 then none else some (c, r)
  | [] => none

/-- Reads the characters of a string up to its closing quote. -/
def readString : Nat → List Char → Option (List Char × List Char)
  | 0, _ => none
  | fuel + 1, s =>
    if s.head? = some '"' then some ([], s.tail)
    else do
      let (c, r) ← readCharacter s
      let (cs, r) ← readString fuel r
      some (c :: cs, r)

section Lists

variable {α : Type} (readOne : List Char → Option (α × List Char)) (close : Char)

/-- Reads the elements that are left, at least one, up to the closing bracket. -/
def readMore : Nat → List Char → Option (List α × List Char)
  | 0, _ => none
  | fuel + 1, s => do
    let (x, r) ← readOne s
    match skipSpace r with
    | c :: r =>
      if c = close then some ([x], r)
      else if c = ',' then do
        let (xs, r) ← readMore fuel r
        some (x :: xs, r)
      else none
    | [] => none

/-- Reads the elements after an opening bracket, up to the closing one. -/
def readAll (s : List Char) : Option (List α × List Char) :=
  if (skipSpace s).head? = some close then some ([], (skipSpace s).tail)
  else readMore readOne close s.length s

end Lists

/-- Reads a name with its value. -/
def readField (readOne : List Char → Option (Json × List Char)) (s : List Char) :
    Option ((String × Json) × List Char) :=
  match skipSpace s with
  | '"' :: r => do
    let (name, r) ← readString r.length r
    match skipSpace r with
    | ':' :: r => do
      let (v, r) ← readOne r
      some ((String.ofList name, v), r)
    | _ => none
  | _ => none

/-- Reads a value with fewer than so many arrays and objects inside each other. -/
def readValue : Nat → List Char → Option (Json × List Char)
  | 0, _ => none
  | fuel + 1, s =>
    match skipSpace s with
    | '"' :: r => (readString r.length r).map fun (cs, r) => (.text (String.ofList cs), r)
    | '[' :: r => (readAll (readValue fuel) ']' r).map fun (vs, r) => (.array vs, r)
    | '\x7b' :: r =>
      (readAll (readField (readValue fuel)) '\x7d' r).map fun (fs, r) => (.object fs, r)
    | r => (readNatural r).map fun (n, r) => (.natural n, r)

/-- The value that a text spells, when it is well-formed. -/
def read? (text : String) : Option Json := do
  let (v, r) ← readValue text.length text.toList
  if skipSpace r = [] then some v else none

/-- Two code units may stand for one character. -/
example : read? "\"\\ud83d\\ude00\"" = some (.text "😀") := rfl

/-- A comma after the last element is no JSON. -/
example : read? "[1, ]" = none := rfl

/-! ## Numbers -/

/-- The text does not go on with a digit. -/
def Stops (rest : List Char) : Prop :=
  ∀ c, rest.head? = some c → c.isDigit = false

theorem stops_nil : Stops [] := by
  intro c hc
  cases hc

theorem stops_cons {c : Char} (h : c.isDigit = false) (rest : List Char) : Stops (c :: rest) := by
  intro d hd
  cases hd
  exact h

theorem Stops.takeWhile {rest : List Char} (h : Stops rest) : rest.takeWhile Char.isDigit = [] := by
  cases rest with
  | nil => rfl
  | cons c rest => exact List.takeWhile_cons_of_neg (by simp [h c rfl])

theorem Stops.dropWhile {rest : List Char} (h : Stops rest) :
    rest.dropWhile Char.isDigit = rest := by
  cases rest with
  | nil => rfl
  | cons c rest => exact List.dropWhile_cons_of_neg (by simp [h c rfl])

/-- The digits of a number have no zero in front, unless it is the only one. -/
theorem head?_digitsOfNat {n : Nat} (h : (Text.digitsOfNat n).head? = some '0') :
    Text.digitsOfNat n = ['0'] := by
  by_cases hn : n = 0
  · rw [hn]
    rfl
  · exact absurd h (head?_toDigits hn)

theorem readNatural_digits (n : Nat) {rest : List Char} (h : Stops rest) :
    readNatural (Text.digitsOfNat n ++ rest) = some (n, rest) := by
  have hdigits : Digits (Text.digitsOfNat n) := digits_digitsOfNat n
  have htake : (Text.digitsOfNat n ++ rest).takeWhile Char.isDigit = Text.digitsOfNat n := by
    rw [List.takeWhile_append_of_pos hdigits, h.takeWhile, List.append_nil]
  have hdrop : (Text.digitsOfNat n ++ rest).dropWhile Char.isDigit = rest := by
    rw [List.dropWhile_append_of_pos hdigits, h.dropWhile]
  have hgood : ¬ (Text.digitsOfNat n = [] ∨
      (Text.digitsOfNat n).head? = some '0' ∧ Text.digitsOfNat n ≠ ['0']) := by
    rintro (hnil | ⟨hzero, hmore⟩)
    · exact Nat.toDigits_ne_nil hnil
    · exact hmore (head?_digitsOfNat hzero)
  unfold readNatural
  simp only [htake, hdrop, Text.natOfDigits_digitsOfNat]
  exact if_neg hgood

/-! ## Strings -/

theorem hexValue?_digit : ∀ n < 16, Text.hexValue? (hexDigit n) = some n := by
  decide

/-- The escape of a control character without a letter of its own is read back. -/
theorem readCode_control {c : Char} (h : c.toNat < 32) (r : List Char) :
    readCode ('0' :: '0' :: hexDigit (c.toNat / 16) :: hexDigit (c.toNat % 16) :: r) =
      some (c, r) := by
  have hzero : Text.hexValue? '0' = some 0 := by decide
  have hhigh := hexValue?_digit (c.toNat / 16) (by omega)
  have hlow := hexValue?_digit (c.toNat % 16) (by omega)
  have hsum : ((0 * 16 + 0) * 16 + c.toNat / 16) * 16 + c.toNat % 16 = c.toNat := by omega
  have hunit : readUnit ('0' :: '0' :: hexDigit (c.toNat / 16) :: hexDigit (c.toNat % 16) :: r) =
      some (c.toNat, r) := by
    simp only [readUnit, hzero, hhigh, hlow, Option.bind_eq_bind, Option.bind_some, hsum]
  have hvalid : c.toNat.isValidChar := c.valid
  simp only [readCode, hunit, Option.bind_eq_bind, Option.bind_some, if_pos hvalid,
    Char.ofNat_toNat]

/-- Every character is read back from what stands for it between quotes. -/
theorem readCharacter_escape (c : Char) (r : List Char) :
    readCharacter (escape c ++ r) = some (c, r) := by
  unfold escape
  split
  · rfl
  · rfl
  · rfl
  · rfl
  · rfl
  · rfl
  · rfl
  · next hquote hbackslash _ _ _ _ _ =>
    split
    · next hcontrol => exact readCode_control hcontrol r
    · next hplain =>
      show readCharacter (c :: r) = some (c, r)
      unfold readCharacter
      split
      · next heq => exact absurd (List.cons.inj heq).1 hbackslash
      · next heq => exact absurd (List.cons.inj heq).1 hbackslash
      · next heq =>
        obtain ⟨rfl, rfl⟩ := List.cons.inj heq
        exact if_neg hplain
      · next heq => cases heq

/-- Nothing that stands for a character begins with the quote that ends a string. -/
theorem head?_escape (c : Char) (r : List Char) : (escape c ++ r).head? ≠ some '"' := by
  unfold escape
  split <;> try simp
  next hquote _ _ _ _ _ _ =>
    split
    · simp
    · simpa using hquote

/-- **A string is read back**, whatever characters it holds. -/
theorem readString_quoted (s r : List Char) {fuel : Nat} (h : s.length < fuel) :
    readString fuel (s.flatMap escape ++ '"' :: r) = some (s, r) := by
  induction s generalizing fuel with
  | nil =>
    obtain ⟨fuel, rfl⟩ : ∃ m, fuel = m + 1 := ⟨fuel - 1, by omega⟩
    rfl
  | cons c s ih =>
    obtain ⟨fuel, rfl⟩ : ∃ m, fuel = m + 1 := ⟨fuel - 1, by omega⟩
    have hs : s.length < fuel := Nat.lt_of_succ_lt_succ h
    rw [List.flatMap_cons, List.append_assoc, readString, if_neg (head?_escape c _),
      readCharacter_escape]
    simp only [Option.bind_eq_bind, Option.bind_some, ih hs]

theorem length_le_flatMap_escape (s : List Char) : s.length ≤ (s.flatMap escape).length := by
  have hone (c : Char) : 1 ≤ (escape c).length := by
    unfold escape
    split <;> try simp
    split <;> simp
  induction s with
  | nil => simp
  | cons c s ih =>
    have hc := hone c
    rw [List.flatMap_cons, List.length_append, List.length_cons]
    omega

/-- The string at the head of a text is read, with no more fuel than there are characters. -/
theorem readString_escaped (s r : List Char) :
    readString (s.flatMap escape ++ '"' :: r).length (s.flatMap escape ++ '"' :: r) =
      some (s, r) := by
  have hlength := length_le_flatMap_escape s
  exact readString_quoted s r (by rw [List.length_append, List.length_cons]; omega)

/-! ## White space -/

theorem skipSpace_cons {c : Char} (h : isSpace c = false) (r : List Char) :
    skipSpace (c :: r) = c :: r :=
  List.dropWhile_cons_of_neg (by simp [h])

theorem skipSpace_newLine (depth : Nat) (r : List Char) :
    skipSpace (newLine depth ++ r) = skipSpace r := by
  have hall : ∀ c ∈ newLine depth, isSpace c = true := by
    intro c hc
    rcases List.mem_cons.1 hc with rfl | hblank
    · rfl
    · rw [List.eq_of_mem_replicate hblank]
      rfl
  exact List.dropWhile_append_of_pos hall

/-! ## Lists -/

section Lists

variable {α : Type}

/-- Elements with a line for each, and commas between them; the first of all has no comma before
it. -/
def writeList (text : α → List Char) (depth : Nat) (first : Bool) : List α → List Char
  | [] => if first then [] else newLine depth
  | x :: xs =>
    (if first then [] else [',']) ++ newLine (depth + 1) ++ text x ++
      writeList text depth false xs

theorem writeItems_eq (depth : Nat) (first : Bool) (vs : List Json) :
    writeItems depth first vs = writeList (write (depth + 1)) depth first vs := by
  induction vs generalizing first with
  | nil => rw [writeItems, writeList]
  | cons v vs ih => rw [writeItems, writeList, ih]

/-- The text of a field. -/
def fieldText (depth : Nat) (f : String × Json) : List Char :=
  quoted f.1.toList ++ [':', ' '] ++ write depth f.2

theorem writeFields_eq (depth : Nat) (first : Bool) (fs : List (String × Json)) :
    writeFields depth first fs = writeList (fieldText (depth + 1)) depth first fs := by
  induction fs generalizing first with
  | nil => rw [writeFields, writeList]
  | cons f fs ih =>
    rw [writeFields, writeList, ih]
    simp only [fieldText, List.append_assoc]

/-- What follows an element: nothing but the closing bracket, or a comma and more elements. -/
theorem writeList_after (text : α → List Char) (depth : Nat) (x : α) (xs : List α) :
    writeList text depth false (x :: xs) = ',' :: writeList text depth true (x :: xs) := rfl

theorem stops_writeList (text : α → List Char) (depth : Nat) (xs : List α) (r : List Char) :
    Stops (writeList text depth false xs ++ r) := by
  cases xs with
  | nil => exact stops_cons (by decide) _
  | cons x xs => exact stops_cons (by decide) _

variable {readOne : List Char → Option (α × List Char)} {close : Char} {text : α → List Char}
  {depth : Nat}

/-- The element is read from the line that it is written on. -/
def ReadsLine (readOne : List Char → Option (α × List Char)) (text : α → List Char) (depth : Nat)
    (x : α) : Prop :=
  ∀ rest, Stops rest → readOne (newLine depth ++ text x ++ rest) = some (x, rest)

theorem readMore_writeList (hspace : isSpace close = false) (hcomma : close ≠ ',') {x : α}
    {xs : List α} (h : ∀ y ∈ x :: xs, ReadsLine readOne text (depth + 1) y) (rest : List Char)
    {fuel : Nat} (hfuel : xs.length < fuel) :
    readMore readOne close fuel (writeList text depth true (x :: xs) ++ close :: rest) =
      some (x :: xs, rest) := by
  induction xs generalizing x fuel with
  | nil =>
    obtain ⟨fuel, rfl⟩ : ∃ m, fuel = m + 1 := ⟨fuel - 1, by omega⟩
    have hone := h x List.mem_cons_self (newLine depth ++ close :: rest)
      (stops_writeList text depth [] (close :: rest))
    have hend : skipSpace (newLine depth ++ close :: rest) = close :: rest := by
      rw [skipSpace_newLine, skipSpace_cons hspace]
    show readMore readOne close (fuel + 1)
      (([] ++ newLine (depth + 1) ++ text x ++ newLine depth) ++ close :: rest) = _
    rw [List.nil_append, List.append_assoc _ (newLine depth), readMore, hone]
    simp only [Option.bind_eq_bind, Option.bind_some, hend, if_true]
  | cons y ys ih =>
    obtain ⟨fuel, rfl⟩ : ∃ m, fuel = m + 1 := ⟨fuel - 1, by omega⟩
    have hone := h x List.mem_cons_self _ (stops_writeList text depth (y :: ys) (close :: rest))
    have hmore := ih (fun z hz => h z (List.mem_cons_of_mem x hz)) (Nat.lt_of_succ_lt_succ hfuel)
    have hafter : skipSpace (writeList text depth false (y :: ys) ++ close :: rest) =
        ',' :: (writeList text depth true (y :: ys) ++ close :: rest) := by
      rw [writeList_after, List.cons_append, skipSpace_cons (by decide)]
    show readMore readOne close (fuel + 1)
      (([] ++ newLine (depth + 1) ++ text x ++ writeList text depth false (y :: ys)) ++
        close :: rest) = _
    rw [List.nil_append, List.append_assoc _ (writeList _ _ _ _), readMore, hone]
    simp only [Option.bind_eq_bind, Option.bind_some, hafter, hcomma.symm, if_false, if_true, hmore]

theorem length_le_writeList (text : α → List Char) (depth : Nat) (xs : List α) :
    xs.length ≤ (writeList text depth true xs).length := by
  have hfalse : ∀ xs : List α, xs.length ≤ (writeList text depth false xs).length := by
    intro xs
    induction xs with
    | nil => exact Nat.zero_le _
    | cons x xs ih =>
      rw [writeList]
      simp only [List.length_append, List.length_cons, Bool.false_eq_true, if_false]
      omega
  cases xs with
  | nil => exact Nat.zero_le _
  | cons x xs =>
    have hxs := hfalse xs
    rw [writeList]
    simp only [List.length_append, List.length_cons, newLine]
    omega

/-- The text of an element starts with a character that is neither white space nor the bracket that
closes the list. -/
def Begins (close : Char) (text : List Char) : Prop :=
  ∃ c r, text = c :: r ∧ isSpace c = false ∧ c ≠ close

/-- A list is read back when each of its elements is. -/
theorem readAll_writeList (hspace : isSpace close = false) (hcomma : close ≠ ',') {xs : List α}
    (h : ∀ x ∈ xs, ReadsLine readOne text (depth + 1) x) (hbegins : ∀ x ∈ xs, Begins close (text x))
    (rest : List Char) :
    readAll readOne close (writeList text depth true xs ++ close :: rest) = some (xs, rest) := by
  unfold readAll
  cases xs with
  | nil =>
    have hend : skipSpace (writeList text depth true [] ++ close :: rest) = close :: rest :=
      skipSpace_cons hspace rest
    rw [hend]
    exact if_pos rfl
  | cons x xs =>
    obtain ⟨c, r, htext, hc, hne⟩ := hbegins x List.mem_cons_self
    have hfirst : (skipSpace (writeList text depth true (x :: xs) ++ close :: rest)).head? =
        some c := by
      rw [writeList]
      simp only [if_true, List.nil_append, List.append_assoc]
      rw [skipSpace_newLine, htext, List.cons_append, skipSpace_cons hc]
      rfl
    have hne' : (skipSpace (writeList text depth true (x :: xs) ++ close :: rest)).head? ≠
        some close := by
      rw [hfirst]
      exact fun heq => hne (Option.some.inj heq)
    have hlength := length_le_writeList text depth (x :: xs)
    rw [if_neg hne']
    refine readMore_writeList hspace hcomma h rest ?_
    rw [List.length_append]
    rw [List.length_cons] at hlength
    omega

end Lists

/-! ## Values -/

theorem begins_quoted {close : Char} (h : close ≠ '"') (s r : List Char) :
    Begins close (quoted s ++ r) :=
  ⟨'"', _, rfl, by decide, h.symm⟩

/-- The text of a value starts with a digit, a quote or an opening bracket. -/
theorem begins_write {close : Char} (hdigit : close.isDigit = false) (hquote : close ≠ '"')
    (hbracket : close ≠ '[') (hbrace : close ≠ '\x7b') (depth : Nat) (v : Json) :
    Begins close (write depth v) := by
  cases v with
  | natural n =>
    have hdigits : Digits (Text.digitsOfNat n) := digits_digitsOfNat n
    rw [write]
    cases htext : Text.digitsOfNat n with
    | nil => exact absurd htext Nat.toDigits_ne_nil
    | cons c r =>
      have hc : c ∈ Text.digitsOfNat n := htext ▸ List.mem_cons_self
      refine ⟨c, r, rfl, ?_, hdigits.ne hc hdigit⟩
      unfold isSpace
      simp [hdigits.ne hc (d := ' ') (by decide), hdigits.ne hc (d := '\t') (by decide),
        hdigits.ne hc (d := '\n') (by decide), hdigits.ne hc (d := '\r') (by decide)]
  | text s => exact ⟨'"', _, write.eq_2 depth s, by decide, hquote.symm⟩
  | array vs => exact ⟨'[', _, write.eq_3 depth vs, by decide, hbracket.symm⟩
  | object fs => exact ⟨'\x7b', _, write.eq_4 depth fs, by decide, hbrace.symm⟩

/-- The value is read up to its end wherever it is written, when there is fuel for its text. -/
def ReadsBack (v : Json) : Prop :=
  ∀ depth fuel rest, (write depth v).length ≤ fuel → Stops rest →
    readValue fuel (write depth v ++ rest) = some (v, rest)

theorem readValue_newLine (fuel depth : Nat) (r : List Char) :
    readValue fuel (newLine depth ++ r) = readValue fuel r := by
  cases fuel with
  | zero => rfl
  | succ fuel => rw [readValue, readValue, skipSpace_newLine]

theorem ReadsBack.line {v : Json} (h : ReadsBack v) {depth fuel : Nat}
    (hfuel : (write depth v).length ≤ fuel) :
    ReadsLine (readValue fuel) (write depth) depth v := by
  intro rest hrest
  rw [List.append_assoc, readValue_newLine]
  exact h depth fuel rest hfuel hrest

/-- A field is read back when its value is. -/
theorem ReadsBack.field {f : String × Json} (h : ReadsBack f.2) {depth fuel : Nat}
    (hfuel : (write depth f.2).length ≤ fuel) :
    ReadsLine (readField (readValue fuel)) (fieldText depth) depth f := by
  intro rest hrest
  have htext : fieldText depth f ++ rest =
      '"' :: (f.1.toList.flatMap escape ++ '"' :: (':' :: ' ' :: (write depth f.2 ++ rest))) := by
    simp only [fieldText, quoted, List.append_assoc, List.cons_append, List.nil_append]
  have hskip : skipSpace (newLine depth ++ fieldText depth f ++ rest) =
      '"' :: (f.1.toList.flatMap escape ++ '"' :: (':' :: ' ' :: (write depth f.2 ++ rest))) := by
    rw [List.append_assoc, skipSpace_newLine, htext, skipSpace_cons (by decide)]
  have hvalue : readValue fuel (' ' :: (write depth f.2 ++ rest)) = some (f.2, rest) := by
    have hblank : readValue fuel (' ' :: (write depth f.2 ++ rest)) =
        readValue fuel (write depth f.2 ++ rest) := by
      cases fuel with
      | zero => rfl
      | succ fuel => rfl
    rw [hblank]
    exact h depth fuel rest hfuel hrest
  unfold readField
  rw [hskip]
  simp only [readString_escaped, Option.bind_eq_bind, Option.bind_some,
    skipSpace_cons (c := ':') (by decide), hvalue, String.ofList_toList]

theorem length_le_of_mem {α : Type} (text : α → List Char) (depth : Nat) (first : Bool) {x : α}
    {xs : List α} (h : x ∈ xs) : (text x).length ≤ (writeList text depth first xs).length := by
  induction xs generalizing first with
  | nil => cases h
  | cons y ys ih =>
    rw [writeList]
    simp only [List.length_append]
    rcases List.mem_cons.1 h with rfl | hys
    · omega
    · have hle := ih false hys
      omega

theorem readsBack_natural (n : Nat) : ReadsBack (.natural n) := by
  intro depth fuel rest hfuel hrest
  have hdigits : Digits (Text.digitsOfNat n) := digits_digitsOfNat n
  have hread := readNatural_digits n hrest
  have hbegins : Begins ']' (write depth (.natural n)) :=
    begins_write (by decide) (by decide) (by decide) (by decide) depth (.natural n)
  obtain ⟨c, r, htext, hspace, -⟩ := hbegins
  rw [htext, List.length_cons] at hfuel
  obtain ⟨fuel, rfl⟩ : ∃ m, fuel = m + 1 := ⟨fuel - 1, by omega⟩
  have hc : c ∈ Text.digitsOfNat n := by
    rw [write] at htext
    exact htext ▸ List.mem_cons_self
  have hnat : readNatural (c :: (r ++ rest)) = some (n, rest) := by
    rw [write] at htext
    rw [← List.cons_append, ← htext]
    exact hread
  rw [htext, List.cons_append, readValue, skipSpace_cons hspace]
  split
  · next heq => exact absurd (List.cons.inj heq).1 (hdigits.ne hc (by decide))
  · next heq => exact absurd (List.cons.inj heq).1 (hdigits.ne hc (by decide))
  · next heq => exact absurd (List.cons.inj heq).1 (hdigits.ne hc (by decide))
  · rw [hnat]
    rfl

theorem readsBack_text (s : String) : ReadsBack (.text s) := by
  intro depth fuel rest hfuel _
  rw [write_text, List.cons_append, List.length_cons] at hfuel
  obtain ⟨fuel, rfl⟩ : ∃ m, fuel = m + 1 := ⟨fuel - 1, by omega⟩
  have htext : write depth (.text s) ++ rest = '"' :: (s.toList.flatMap escape ++ '"' :: rest) := by
    rw [write_text]
    simp only [List.append_assoc, List.cons_append, List.nil_append]
  rw [htext, readValue, skipSpace_cons (by decide)]
  simp only [readString_escaped, Option.map_some, String.ofList_toList]

theorem readsBack_array {vs : List Json} (h : ∀ v ∈ vs, ReadsBack v) : ReadsBack (.array vs) := by
  intro depth fuel rest hfuel _
  have htext : write depth (.array vs) =
      '[' :: (writeList (write (depth + 1)) depth true vs ++ [']']) := by
    rw [write, writeItems_eq]
    rfl
  rw [htext, List.length_cons, List.length_append] at hfuel
  obtain ⟨fuel, rfl⟩ : ∃ m, fuel = m + 1 := ⟨fuel - 1, by omega⟩
  have hlines : ∀ v ∈ vs, ReadsLine (readValue fuel) (write (depth + 1)) (depth + 1) v := by
    intro v hv
    have hle := length_le_of_mem (write (depth + 1)) depth true hv
    exact (h v hv).line (by omega)
  have hbegins : ∀ v ∈ vs, Begins ']' (write (depth + 1) v) := fun v _ =>
    begins_write (by decide) (by decide) (by decide) (by decide) (depth + 1) v
  have hall := readAll_writeList (by decide) (by decide) hlines hbegins rest
  rw [htext, List.cons_append, List.append_assoc, readValue, skipSpace_cons (by decide)]
  simp only [List.cons_append, List.nil_append, hall, Option.map_some]

theorem readsBack_object {fs : List (String × Json)} (h : ∀ f ∈ fs, ReadsBack f.2) :
    ReadsBack (.object fs) := by
  intro depth fuel rest hfuel _
  have htext : write depth (.object fs) =
      '\x7b' :: (writeList (fieldText (depth + 1)) depth true fs ++ ['\x7d']) := by
    rw [write, writeFields_eq]
    rfl
  rw [htext, List.length_cons, List.length_append] at hfuel
  obtain ⟨fuel, rfl⟩ : ∃ m, fuel = m + 1 := ⟨fuel - 1, by omega⟩
  have hlines : ∀ f ∈ fs,
      ReadsLine (readField (readValue fuel)) (fieldText (depth + 1)) (depth + 1) f := by
    intro f hf
    have hle := length_le_of_mem (fieldText (depth + 1)) depth true hf
    have hfield : (write (depth + 1) f.2).length ≤ (fieldText (depth + 1) f).length := by
      rw [fieldText, List.length_append]
      omega
    exact (h f hf).field (by omega)
  have hbegins : ∀ f ∈ fs, Begins '\x7d' (fieldText (depth + 1) f) := fun f _ => by
    rw [fieldText, List.append_assoc]
    exact begins_quoted (by decide) _ _
  have hall := readAll_writeList (by decide) (by decide) hlines hbegins rest
  rw [htext, List.cons_append, List.append_assoc, readValue, skipSpace_cons (by decide)]
  simp only [List.cons_append, List.nil_append, hall, Option.map_some]

/-- **A value is read up to its end**, at every depth. -/
theorem readValue_write (v : Json) : ReadsBack v :=
  match v with
  | .natural n => readsBack_natural n
  | .text s => readsBack_text s
  | .array vs => readsBack_array fun v _ => readValue_write v
  | .object fs => readsBack_object fun f _ => readValue_write f.2
termination_by v
decreasing_by
  · have hmem : v ∈ vs := by assumption
    have hlt := List.sizeOf_lt_of_mem hmem
    rw [array.sizeOf_spec]
    omega
  · have hmem : f ∈ fs := by assumption
    have hlt := List.sizeOf_lt_of_mem hmem
    have hpair : sizeOf f = 1 + sizeOf f.1 + sizeOf f.2 := rfl
    rw [object.sizeOf_spec]
    omega

/-- **The text of a value is well-formed and gives the value back**, whatever strings stand in
it. -/
theorem read?_render (v : Json) : read? v.render = some v := by
  have hlength : (write 0 v).length ≤ v.render.length := by
    rw [render, String.length_ofList]
  have hread := readValue_write v 0 v.render.length [] hlength stops_nil
  rw [List.append_nil] at hread
  unfold read?
  rw [render, String.toList_ofList]
  rw [render] at hread
  simp only [hread, Option.bind_eq_bind, Option.bind_some]
  exact if_pos rfl

end CommitGate.Json

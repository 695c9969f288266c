import CommitGate.Text.Search
import CommitGate.Toml.Quoted

/-!
# Bare values of TOML

A value without quotes or brackets is a word of letters, digits and the signs `_ + - . :`. It is a
truth value, an integer, a float, a date or a time. A date and a time may have a blank between them.

Integers have to fit 64 bits with a sign. Of floats and dates only the validity matters, so they
keep their spelling.

Results:

* `fits?_eq_some_iff`: a number fits exactly when it lies between the bounds of 64 bits with a sign.
-/

namespace CommitGate.Toml

/-- A value without quotes or brackets. -/
inductive Bare where
  | boolean (b : Bool)
  | integer (n : Int)
  | float (spelling : List Char)
  /-- A date, a time of day, or both. -/
  | moment (spelling : List Char)
deriving DecidableEq, Repr

/-! ## Digits -/

/-- The digits of a number whose groups are separated by single underscores. -/
def grouped? (isDigit : Char → Bool) (s : List Char) : Option (List Char) :=
  let groups := Text.splitOn ['_'] s
  if groups.all fun g => g ≠ [] ∧ g.all isDigit then some groups.flatten else none

/-- The digits of a decimal number without a needless zero in front. -/
def decimal? (s : List Char) : Option (List Char) := do
  let ds ← grouped? Char.isDigit s
  if ds.head? = some '0' ∧ ds ≠ ['0'] then none else some ds

/-- The sign in front, as a factor, and what follows it. -/
def signed : List Char → Int × List Char
  | '-' :: r => (-1, r)
  | '+' :: r => (1, r)
  | s => (1, s)

/-- The value of a run of digits in a base up to sixteen. -/
def valueOf (base : Nat) (ds : List Char) : Nat :=
  ds.foldl (fun n c => n * base + (Text.hexValue? c).getD 0) 0

/-! ## Integers -/

/-- No integer reaches this bound; its negation is the least integer. -/
def integerBound : Nat := Nat.pow 2 63

/-- The number, if it fits 64 bits. -/
def fits? (n : Int) : Option Int :=
  if -integerBound ≤ n ∧ n < integerBound then some n else none

theorem fits?_eq_some_iff {n m : Int} :
    fits? n = some m ↔ n = m ∧ -integerBound ≤ n ∧ n < integerBound := by
  rw [fits?]; split <;> grind

/-- The value of a word that is an integer. -/
def integer? : List Char → Option Int
  | '0' :: 'x' :: r => do fits? (valueOf 16 (← grouped? (fun c => (Text.hexValue? c).isSome) r))
  | '0' :: 'o' :: r => do fits? (valueOf 8 (← grouped? (fun c => '0' ≤ c ∧ c ≤ '7') r))
  | '0' :: 'b' :: r => do fits? (valueOf 2 (← grouped? (fun c => '0' ≤ c ∧ c ≤ '1') r))
  | s => do fits? ((signed s).1 * valueOf 10 (← decimal? (signed s).2))

/-! ## Floats -/

/-- A digit or the separator of groups. -/
def isDigitOrGap (c : Char) : Bool :=
  c.isDigit || c == '_'

/-- The parts of a float: the digits before and after the point, and the exponent. -/
structure FloatParts where
  negative : Bool
  whole : List Char
  fraction : List Char
  exponent : Int

/-- The exponent after an `e`; an empty rest has none. -/
def exponent? : List Char → Option Int
  | [] => some 0
  | c :: r =>
    if c = 'e' ∨ c = 'E' then do
      some ((signed r).1 * valueOf 10 (← grouped? Char.isDigit (signed r).2))
    else none

/-- The parts of a word that is a float with digits. -/
def floatParts? (s : List Char) : Option FloatParts := do
  let (sign, body) := signed s
  let whole ← decimal? (body.takeWhile isDigitOrGap)
  match body.dropWhile isDigitOrGap with
  | [] => none
  | '.' :: r =>
    let fraction ← grouped? Char.isDigit (r.takeWhile isDigitOrGap)
    some ⟨sign < 0, whole, fraction, ← exponent? (r.dropWhile isDigitOrGap)⟩
  | r => some ⟨sign < 0, whole, [], ← exponent? r⟩

/-- The least number that rounds to infinity. -/
def infinityBound : Nat := Nat.pow 2 1024 - Nat.pow 2 970

/-- The number is too large for a float of 64 bits. -/
def FloatParts.overflows (p : FloatParts) : Bool :=
  let digits := (p.whole ++ p.fraction).dropWhile (· = '0')
  let shift := p.exponent - p.fraction.length
  let places := digits.length + shift
  if digits = [] ∨ places < 309 then false
  else if 310 < places then true
  else infinityBound * Nat.pow 10 (-shift).toNat ≤ valueOf 10 digits * Nat.pow 10 shift.toNat

/-- The word is a float. Only a positive number may not be too large. -/
def isFloat (s : List Char) : Bool :=
  (signed s).2 = ['i', 'n', 'f'] ∨ (signed s).2 = ['n', 'a', 'n'] ∨
    (floatParts? s).any fun p => p.negative || !p.overflows

/-! ## Dates and times -/

/-- A run of exactly `n` digits in front, as a number, and what follows it. -/
def takeNumber? (n : Nat) (s : List Char) : Option (Nat × List Char) :=
  let ds := s.take n
  if ds.length = n ∧ ds.all Char.isDigit then some (valueOf 10 ds, s.drop n) else none

/-- What follows the character `c` in front. -/
def after? (c : Char) : List Char → Option (List Char)
  | d :: r => if d = c then some r else none
  | [] => none

/-- The number of days of a month. -/
def daysOf (year month : Nat) : Nat :=
  if month = 2 then if year % 4 = 0 ∧ (year % 100 ≠ 0 ∨ year % 400 = 0) then 29 else 28
  else if month ∈ [4, 6, 9, 11] then 30
  else 31

/-- What follows a date in front. -/
def afterDate? (s : List Char) : Option (List Char) := do
  let (year, s) ← takeNumber? 4 s
  let (month, s) ← takeNumber? 2 (← after? '-' s)
  let (day, s) ← takeNumber? 2 (← after? '-' s)
  if 1 ≤ month ∧ month ≤ 12 ∧ 1 ≤ day ∧ day ≤ daysOf year month then some s else none

/-- What follows an hour and a minute in front. -/
def afterMinute? (s : List Char) : Option (List Char) := do
  let (hour, s) ← takeNumber? 2 s
  let (minute, s) ← takeNumber? 2 (← after? ':' s)
  if hour ≤ 23 ∧ minute ≤ 59 then some s else none

/-- What follows a time of day in front; a leap second is allowed. -/
def afterTime? (s : List Char) : Option (List Char) := do
  let (second, s) ← takeNumber? 2 (← after? ':' (← afterMinute? s))
  if second ≤ 60 then
    match s with
    | '.' :: r => if (r.head?.any Char.isDigit) then some (r.dropWhile Char.isDigit) else none
    | _ => some s
  else none

/-- The text is an offset from universal time, or nothing. -/
def isOffset (s : List Char) : Bool :=
  match s with
  | [] => true
  | c :: r =>
    if c = '+' ∨ c = '-' then afterMinute? r = some []
    else (c = 'Z' ∨ c = 'z') ∧ r = []

/-- The word is a date with a time after `separator`, and perhaps an offset. -/
def isDateTime (separators : List Char) (s : List Char) : Bool :=
  match afterDate? s with
  | some (c :: r) => c ∈ separators ∧ (afterTime? r).any isOffset
  | _ => false

/-- The word is a date, a time of day, or both. -/
def isMoment (s : List Char) : Bool :=
  afterDate? s = some [] ∨ afterTime? s = some [] ∨ isDateTime ['T', 't'] s

/-! ## Words -/

/-- A character of a bare value. -/
def isWordChar (c : Char) : Bool :=
  c.isAlphanum || c ∈ ['_', '+', '-', '.', ':']

/-- The value of a word. -/
def Bare.ofWord? (s : List Char) : Option Bare :=
  if s = "true".toList then some (.boolean true)
  else if s = "false".toList then some (.boolean false)
  else if isMoment s then some (.moment s)
  else if isFloat s then some (.float s)
  else (integer? s).map .integer

/-- Reads a bare value. A blank after a date goes on to a time when a digit follows it. -/
def readBare (s : List Char) : Option (Bare × List Char) :=
  let word := s.takeWhile isWordChar
  match s.dropWhile isWordChar with
  | ' ' :: c :: r =>
    if afterDate? word = some [] ∧ c.isDigit then
      let whole := word ++ ' ' :: (c :: r).takeWhile isWordChar
      if isDateTime [' '] whole then some (.moment whole, (c :: r).dropWhile isWordChar) else none
    else (Bare.ofWord? word).map (·, ' ' :: c :: r)
  | rest => (Bare.ofWord? word).map (·, rest)

end CommitGate.Toml

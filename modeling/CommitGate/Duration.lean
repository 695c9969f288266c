import CommitGate.Text.Blank
import CommitGate.Text.DecimalDigit

/-!
# Durations

A duration is written as a sequence of amounts with units, `1h 30m` or `1.5s`. An amount may have a
decimal fraction, blank characters may stand inside and after a number, and amounts of several units
are added up. The text `0` alone needs no unit. An amount that does not fit 64 bits, or whose
fraction is not a whole number of the finest step of its unit, is refused.
-/

namespace CommitGate

/-- A length of time: `nanos` stays below one second. -/
structure Duration where
  secs : Nat
  nanos : Nat
deriving DecidableEq, Repr

namespace Duration

/-- No intermediate result reaches this bound. -/
def bound : Nat := Nat.pow 2 64

/-- The length in milliseconds, rounded down. -/
def millis (d : Duration) : Nat :=
  d.secs * 1000 + d.nanos / 1000000

/-! ## Units -/

/-- What a unit counts: whole seconds, or nanoseconds. -/
structure Scale where
  secs : Nat
  nanos : Nat
  /-- How many steps one unit has for a fraction of it; no step at all for nanoseconds. -/
  steps : Nat
  /-- The steps are nanoseconds; otherwise they are seconds. -/
  fine : Bool

/-- The unit of a name. -/
def unit? (name : String) : Option Scale :=
  if name ∈ ["nanos", "nsec", "ns"] then some ⟨0, 1, 0, true⟩
  else if name ∈ ["usec", "us", "µs"] then some ⟨0, 1000, 1000, true⟩
  else if name ∈ ["millis", "msec", "ms"] then some ⟨0, 1000000, 1000000, true⟩
  else if name ∈ ["seconds", "second", "secs", "sec", "s"] then some ⟨1, 0, 1000000000, true⟩
  else if name ∈ ["minutes", "minute", "min", "mins", "m"] then some ⟨60, 0, 60000000000, true⟩
  else if name ∈ ["hours", "hour", "hr", "hrs", "h"] then some ⟨3600, 0, 3600, false⟩
  else if name ∈ ["days", "day", "d"] then some ⟨86400, 0, 86400, false⟩
  else if name ∈ ["weeks", "week", "wk", "wks", "w"] then some ⟨604800, 0, 604800, false⟩
  else if name ∈ ["months", "month", "M"] then some ⟨2630016, 0, 2630016, false⟩
  else if name ∈ ["years", "year", "yr", "yrs", "y"] then some ⟨31557600, 0, 31557600, false⟩
  else none

/-! ## Amounts -/

/-- A number that stays below the bound. -/
def fits? (n : Nat) : Option Nat :=
  if n < bound then some n else none

/-- `d` and so many more seconds and nanoseconds. -/
def add? (d : Duration) (secs nanos : Nat) : Option Duration := do
  let n ← fits? (d.nanos + nanos)
  let carried ← fits? (secs + n / 1000000000)
  some ⟨← fits? (d.secs + carried), n % 1000000000⟩

/-- A fraction below one: `digits` over ten to the power of `places`. -/
structure Fraction where
  digits : Nat
  places : Nat

/-- What the digits of a fraction are divided by. -/
def Fraction.scale (f : Fraction) : Nat :=
  Nat.pow 10 f.places

/-- `d` and an amount of a unit: its whole part, and then its fraction, which has to be a whole
number of steps. -/
def addAmount? (d : Duration) (whole : Nat) (fraction : Option Fraction) (u : Scale) :
    Option Duration := do
  let d ← add? d (← fits? (whole * u.secs)) (← fits? (whole * u.nanos))
  match fraction with
  | none => some d
  | some f => do
    let scaled ← fits? (f.digits * u.steps)
    if u.steps = 0 ∨ scaled % f.scale ≠ 0 then none
    else if u.fine then add? d 0 (scaled / f.scale)
    else add? d (scaled / f.scale) 0

/-! ## Reading -/

/-- A letter that may stand in the name of a unit. -/
def isUnitLetter (c : Char) : Bool :=
  ('a' ≤ c && c ≤ 'z') || ('A' ≤ c && c ≤ 'Z') || c == 'µ'

/-- Where the reader is in the current amount. -/
inductive Phase where
  /-- Before the first digit of an amount. -/
  | start
  /-- Among the digits of the whole part. -/
  | whole (n : Nat)
  /-- After the decimal point. -/
  | fraction (n : Nat) (f : Fraction)
  /-- Among the letters of the unit, held in reverse. -/
  | letters (n : Nat) (f : Option Fraction) (name : List Char)

/-- The reader: what has been added up, and where it is. -/
structure Reader where
  total : Duration
  phase : Phase
  /-- An amount has begun. -/
  begun : Bool

/-- Ends the amount that is being read. -/
def Reader.close? (r : Reader) (n : Nat) (f : Option Fraction) (name : List Char) :
    Option Reader := do
  let total ← addAmount? r.total n f (← unit? (String.ofList name.reverse))
  some ⟨total, .start, true⟩

/-- The next digit of a number. -/
def digit? (n : Nat) (c : Char) : Option Nat :=
  fits? (n * 10 + Text.digitValue c)

/-- Takes one character. -/
def Reader.next? (r : Reader) (c : Char) : Option Reader :=
  match r.phase with
  | .start =>
    if c.isDigit then some { r with phase := .whole (Text.digitValue c), begun := true }
    else if Text.isBlank c then some r
    else none
  | .whole n =>
    if c.isDigit then do some { r with phase := .whole (← digit? n c) }
    else if Text.isBlank c then some r
    else if isUnitLetter c then some { r with phase := .letters n none [c] }
    else if c = '.' then some { r with phase := .fraction n ⟨0, 0⟩ }
    else none
  | .fraction n f =>
    if c.isDigit then do
      let places := f.places + 1
      let _ ← fits? (Nat.pow 10 places)
      some { r with phase := .fraction n ⟨← digit? f.digits c, places⟩ }
    else if Text.isBlank c then some r
    else if isUnitLetter c then
      if f.places = 0 then none else some { r with phase := .letters n (some f) [c] }
    else none
  | .letters n f name =>
    if c.isDigit then do
      some { ← r.close? n f name with phase := .whole (Text.digitValue c) }
    else if Text.isBlank c then r.close? n f name
    else if isUnitLetter c then some { r with phase := .letters n f (c :: name) }
    else none

/-- The total at the end of the text. -/
def Reader.finish? (r : Reader) : Option Duration :=
  match r.phase with
  | .start => if r.begun then some r.total else none
  | .letters n f name => (r.close? n f name).map (·.total)
  | .whole _ | .fraction _ _ => none

/-- Reads a duration. -/
def parse? (s : String) : Option Duration :=
  if s = "0" then some ⟨0, 0⟩
  else do (← s.toList.foldlM Reader.next? ⟨⟨0, 0⟩, .start, false⟩).finish?

end Duration

end CommitGate

import CommitGate.Text.DecimalDigit

/-!
# Writing JSON

A value is written over several lines: each item of an array and each field of an object has a line
of its own, two spaces deeper than the bracket before it. Empty arrays and objects stay on one line.

Results:

* `write_text`: a text is written between two quotes, character by character.
-/

namespace CommitGate

/-- A JSON value. -/
inductive Json where
  | natural (n : Nat)
  | text (s : String)
  | array (items : List Json)
  | object (fields : List (String × Json))
deriving Repr, Inhabited

namespace Json

/-- A digit in base sixteen. -/
def hexDigit (n : Nat) : Char :=
  if n < 10 then Char.ofNat (48 + n) else Char.ofNat (87 + n)

/-- The characters that stand for one character between quotes. -/
def escape (c : Char) : List Char :=
  match c with
  | '"' => ['\\', '"']
  | '\\' => ['\\', '\\']
  | '\x08' => ['\\', 'b']
  | '\x0c' => ['\\', 'f']
  | '\n' => ['\\', 'n']
  | '\r' => ['\\', 'r']
  | '\t' => ['\\', 't']
  | c =>
    if c.toNat < 32 then ['\\', 'u', '0', '0', hexDigit (c.toNat / 16), hexDigit (c.toNat % 16)]
    else [c]

/-- A text between quotes. -/
def quoted (s : List Char) : List Char :=
  '"' :: s.flatMap escape ++ ['"']

/-- The start of a line at a depth. -/
def newLine (depth : Nat) : List Char :=
  '\n' :: List.replicate (2 * depth) ' '

mutual

/-- The text of a value whose lines stand at a depth. -/
def write (depth : Nat) : Json → List Char
  | .natural n => Text.digitsOfNat n
  | .text s => quoted s.toList
  | .array items => ['['] ++ writeItems depth true items ++ [']']
  | .object fields => ['\x7b'] ++ writeFields depth true fields ++ ['\x7d']

/-- The lines of the items that are left; the first of all has no comma before it. -/
def writeItems (depth : Nat) (first : Bool) : List Json → List Char
  | [] => if first then [] else newLine depth
  | v :: vs =>
    (if first then [] else [',']) ++ newLine (depth + 1) ++ write (depth + 1) v
      ++ writeItems depth false vs

/-- The lines of the fields that are left. -/
def writeFields (depth : Nat) (first : Bool) : List (String × Json) → List Char
  | [] => if first then [] else newLine depth
  | (k, v) :: fs =>
    (if first then [] else [',']) ++ newLine (depth + 1) ++ quoted k.toList ++ [':', ' ']
      ++ write (depth + 1) v ++ writeFields depth false fs

end

/-- The text of a value. -/
def render (v : Json) : String :=
  String.ofList (v.write 0)

theorem write_text (depth : Nat) (s : String) :
    write depth (.text s) = '"' :: s.toList.flatMap escape ++ ['"'] := by
  simp [write, quoted]

end Json

end CommitGate

import CommitGate.Text.DecimalDigit
import CommitGate.Toml.Quoted

/-!
# Writing TOML

A document is written in blocks with an empty line between them: pairs without a header, tables, and
items of arrays of tables. An array of two items or more has a line for each.
-/

namespace CommitGate.Toml

/-- A value that blocks hold. -/
inductive Plain where
  | text (s : String)
  | texts (ss : List String)
  | natural (n : Nat)
  | boolean (b : Bool)
deriving DecidableEq, Repr

/-- An array of items that are already written. -/
def writeArray : List (List Char) → List Char
  | [] => ['[', ']']
  | [x] => '[' :: x ++ [']']
  | xs => ['[', '\n'] ++ xs.flatMap (fun x => "    ".toList ++ x ++ [',', '\n']) ++ [']']

/-- The text of a value. -/
def Plain.write : Plain → List Char
  | .text s => writeQuoted s.toList
  | .texts ss => writeArray (ss.map fun s => writeQuoted s.toList)
  | .natural n => Text.digitsOfNat n
  | .boolean b => (if b then "true" else "false").toList

/-- A key with its value. -/
abbrev Pair := String × Plain

/-- The line of a pair. -/
def writePair (p : Pair) : List Char :=
  p.1.toList ++ [' ', '=', ' '] ++ p.2.write ++ ['\n']

/-- Pairs that stand together. -/
inductive Block where
  /-- Pairs of the document itself. -/
  | pairs (ps : List Pair)
  /-- A table with its header. -/
  | table (name : String) (ps : List Pair)
  /-- One more table of an array. -/
  | item (name : String) (ps : List Pair)
deriving DecidableEq, Repr

/-- The lines of a block. -/
def Block.write : Block → List Char
  | .pairs ps => ps.flatMap writePair
  | .table name ps => ['['] ++ name.toList ++ [']', '\n'] ++ ps.flatMap writePair
  | .item name ps => ['[', '['] ++ name.toList ++ [']', ']', '\n'] ++ ps.flatMap writePair

/-- The blocks with an empty line between them. -/
def writeBlocks (bs : List Block) : List Char :=
  ['\n'].intercalate (bs.map Block.write)

end CommitGate.Toml

import CommitGate.Toml.Bare
import CommitGate.Toml.Value

/-!
# TOML statements

A document is a sequence of lines. A line holds a header, a key with its value, or nothing; a
comment may end it. A value may go on over several lines inside an array or between three quotes.

Each reader takes the characters that remain and returns what it has read with the rest. Arrays and
inline tables may be nested `maxDepth` deep, and a key may have `maxDepth` parts.
-/

namespace CommitGate.Toml

/-- The greatest nesting of arrays and inline tables, and the greatest number of parts of a key. -/
def maxDepth : Nat := 79

/-! ## Blanks, comments and line ends -/

/-- A blank within a line. -/
def isInlineBlank (c : Char) : Bool :=
  c = ' ' || c = '\t'

/-- What follows the blanks in front. -/
def skipBlanks (s : List Char) : List Char :=
  s.dropWhile isInlineBlank

/-- What follows a newline in front. -/
def newline? : List Char → Option (List Char)
  | '\n' :: r => some r
  | '\r' :: '\n' :: r => some r
  | _ => none

/-- What follows a comment in front, if there is one. -/
def skipComment : List Char → List Char
  | '#' :: r => r.dropWhile isPlain
  | s => s

/-- What follows a line with nothing but blanks and a comment left. -/
def lineEnd? (s : List Char) : Option (List Char) :=
  match skipComment (skipBlanks s) with
  | [] => some []
  | r => newline? r

/-- What follows blanks, newlines and comments in front; `comment` says that a comment has begun. -/
def skipSpaceFrom (comment : Bool) : List Char → Option (List Char)
  | [] => some []
  | '\n' :: r => skipSpaceFrom false r
  | '\r' :: '\n' :: r => skipSpaceFrom false r
  | c :: r =>
    if comment then if isPlain c then skipSpaceFrom true r else none
    else if isInlineBlank c then skipSpaceFrom false r
    else if c = '#' then skipSpaceFrom true r
    else some (c :: r)

/-- What follows blanks, newlines and comments in front. -/
def skipSpace (s : List Char) : Option (List Char) :=
  skipSpaceFrom false s

/-! ## Keys -/

/-- A character of a key without quotes. -/
def isKeyChar (c : Char) : Bool :=
  c.isAlphanum || c = '_' || c = '-'

/-- Reads one part of a key. -/
def readPart (s : List Char) : Option (String × List Char) :=
  match readQuoted false s with
  | some (k, r) => some (String.ofList k, r)
  | none =>
    if s.takeWhile isKeyChar = [] then none
    else some (String.ofList (s.takeWhile isKeyChar), s.dropWhile isKeyChar)

/-- Reads a key of at most so many parts, with the blanks around each of them. -/
def readPath : Nat → List Char → Option (List String × List Char)
  | 0, _ => none
  | parts + 1, s => do
    let (k, r) ← readPart (skipBlanks s)
    match skipBlanks r with
    | '.' :: r => do
      let (ks, r) ← readPath parts r
      some (k :: ks, r)
    | r => some ([k], r)

/-! ## Values -/

/-- Reads a value that holds no others. -/
def readScalar (s : List Char) : Option (Value × List Char) :=
  match readQuoted true s with
  | some (t, r) => some (.text (String.ofList t), r)
  | none =>
    match readBare s with
    | some (.boolean b, r) => some (.boolean b, r)
    | some (.integer n, r) => some (.integer n, r)
    | some (.float t, r) => some (.float (String.ofList t), r)
    | some (.moment t, r) => some (.moment (String.ofList t), r)
    | none => none

/-- Reads the items of an array up to its closing bracket. A comma may follow the last item. -/
def readItems (readItem : List Char → Option (Value × List Char)) :
    Nat → List Char → Option (List Value × List Char)
  | 0, _ => none
  | fuel + 1, s => do
    match ← skipSpace s with
    | ']' :: r => some ([], r)
    | s => do
      let (v, r) ← readItem s
      match ← skipSpace r with
      | ',' :: r => do
        let (vs, r) ← readItems readItem fuel r
        some (v :: vs, r)
      | ']' :: r => some ([v], r)
      | _ => none

/-- Reads a key with its value and the blanks after it. -/
def readPair (readItem : List Char → Option (Value × List Char)) (s : List Char) :
    Option ((List String × Value) × List Char) := do
  let (path, r) ← readPath maxDepth s
  let (v, r) ← readItem (skipBlanks (← after? '=' r))
  some ((path, v), skipBlanks r)

/-- Reads the pairs of an inline table, at least one, up to its closing brace. No comma may follow
the last one. -/
def readPairs (readItem : List Char → Option (Value × List Char)) :
    Nat → Entries → List Char → Option (Entries × List Char)
  | 0, _, _ => none
  | fuel + 1, es, s => do
    let ((path, v), r) ← readPair readItem s
    let es ← es.assign path v
    match r with
    | ',' :: r => readPairs readItem fuel es r
    | '\x7d' :: r => some (es, r)
    | _ => none

/-- Reads a value with at most so many arrays and inline tables inside each other. -/
def readValue : Nat → List Char → Option (Value × List Char)
  | 0, s => readScalar s
  | depth + 1, s =>
    match s with
    | '[' :: r => do
      let (vs, r) ← readItems (readValue depth) (r.length + 1) r
      some (.array vs false, r)
    | '\x7b' :: r =>
      match skipBlanks r with
      | '\x7d' :: r => some (.table .inline [], r)
      | r => do
        let (es, r) ← readPairs (readValue depth) (r.length + 1) [] r
        some (.table .inline es, r)
    | s => readScalar s

/-! ## Statements -/

/-- What a line of a document says. -/
inductive Statement where
  /-- The header of a table. -/
  | table (path : List String)
  /-- The header of one more table of an array. -/
  | item (path : List String)
  | pair (path : List String) (v : Value)
deriving Repr

/-- Reads a statement and the end of its line. -/
def readStatement (s : List Char) : Option (Statement × List Char) :=
  match s with
  | '[' :: '[' :: r => do
    let (path, r) ← readPath maxDepth r
    some (.item path, ← lineEnd? (← after? ']' (← after? ']' r)))
  | '[' :: r => do
    let (path, r) ← readPath maxDepth r
    some (.table path, ← lineEnd? (← after? ']' r))
  | s => do
    let ((path, v), r) ← readPair (readValue maxDepth) s
    some (.pair path v, ← lineEnd? r)

/-- Reads so many lines, or all that there are. -/
def readStatementsFrom : Nat → List Char → Option (List Statement)
  | _, [] => some []
  | 0, _ => none
  | fuel + 1, s =>
    match lineEnd? s with
    | some r => readStatementsFrom fuel r
    | none => do
      let (st, r) ← readStatement (skipBlanks s)
      some (st :: (← readStatementsFrom fuel r))

/-- The statements of a text. A byte order mark in front does not count. -/
def readStatements (s : List Char) : Option (List Statement) :=
  let s := if s.head? = some '\uFEFF' then s.tail else s
  readStatementsFrom s.length s

end CommitGate.Toml

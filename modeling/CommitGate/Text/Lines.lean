import CommitGate.Text.Utf8

/-!
# Lines

A line ends with a newline, which is not part of it; a last line need not be ended, and an empty one
is not counted. In a stream, one carriage return at the end of every line is dropped; in a text,
only one that a newline follows. The rule for streams is the same for octets and for characters, so
it is stated for any two symbols.

A stream arrives in pieces whose borders mean nothing. `LineReader` takes the pieces one by one and
holds the line that is still open.

Results:

* `readLines_flatten`: how a stream is cut into pieces does not matter.
-/

namespace CommitGate.Text

variable {α : Type} [DecidableEq α]

/-- The pieces between newlines: a last piece without a newline counts unless it is empty. -/
def pieces (newline : α) : List α → List (List α)
  | [] => []
  | a :: r =>
    if a = newline then [] :: pieces newline r
    else match pieces newline r with
      | [] => [[a]]
      | p :: ps => (a :: p) :: ps

/-- The list without one `mark` at its end. -/
def dropFinal (mark : α) (s : List α) : List α :=
  if s.getLast? = some mark then s.dropLast else s

/-- The lines of a list, each without its line end. -/
def linesBy (newline carriage : α) (s : List α) : List (List α) :=
  (pieces newline s).map (dropFinal carriage)

/-- The lines of a text, as lists of characters. -/
def textLines : List Char → List (List Char)
  | [] => []
  | '\n' :: r => [] :: textLines r
  | '\r' :: '\n' :: r => [] :: textLines r
  | c :: r =>
    match textLines r with
    | [] => [[c]]
    | l :: ls => (c :: l) :: ls

/-- The lines of a text. -/
def lines (s : String) : List String :=
  (textLines s.toList).map String.ofList

/-! ## Reading a stream that arrives in pieces -/

/-- The lines that have ended, newest first, and the octets of the open one, newest first. -/
structure LineReader where
  ended : List Octets
  opened : Octets
deriving DecidableEq, Repr

namespace LineReader

/-- Nothing has been read. -/
def empty : LineReader := ⟨[], []⟩

/-- Takes one octet. -/
def octet (r : LineReader) (b : UInt8) : LineReader :=
  if b = 10 then ⟨r.opened.reverse :: r.ended, []⟩ else ⟨r.ended, b :: r.opened⟩

/-- Takes one piece of the stream. -/
def piece (r : LineReader) (s : Octets) : LineReader :=
  s.foldl octet r

/-- The lines at the end of the stream, without their line ends and as text. -/
def finish (r : LineReader) : List String :=
  let all := if r.opened = [] then r.ended else r.opened.reverse :: r.ended
  all.reverse.map fun line => String.ofList (decodeLossy (dropFinal 13 line))

end LineReader

/-- The lines of a stream that arrives in the given pieces (`read_lines`). -/
def readLines (stream : List Octets) : List String :=
  (stream.foldl LineReader.piece LineReader.empty).finish

theorem readLines_flatten (stream : List Octets) :
    readLines stream = readLines [stream.flatten] := by
  simp only [readLines, List.foldl_cons, List.foldl_nil, LineReader.piece, List.foldl_flatten]
  rfl

end CommitGate.Text

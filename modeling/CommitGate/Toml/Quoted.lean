import CommitGate.Text.DecimalDigit

/-!
# Quoted strings of TOML

A string stands between one quote or three; only three quotes allow newlines inside. Double quotes
allow escapes, single quotes take every character for itself. All four forms are read by one machine
that takes a character at a time. Writing chooses the form that needs the fewest escapes.

Results:

* `isPlain_of_not_isControl`: what is written bare may be read bare.
-/

namespace CommitGate.Toml

/-! ## Forms -/

/-- One of the four ways to quote. -/
structure Form where
  quote : Char
  /-- Three quotes stand at each end. -/
  long : Bool
  /-- A backslash starts an escape. -/
  escapes : Bool
deriving DecidableEq, Repr

namespace Form

def basic : Form := ⟨'"', false, true⟩
def literal : Form := ⟨'\'', false, false⟩
def longBasic : Form := ⟨'"', true, true⟩
def longLiteral : Form := ⟨'\'', true, false⟩

/-- The quotes at each end. -/
def fence (f : Form) : List Char :=
  List.replicate (if f.long then 3 else 1) f.quote

end Form

/-- A character that may stand for itself: a tab, or any that is not a control character. -/
def isPlain (c : Char) : Bool :=
  c = '\t' || (0x20 ≤ c.toNat && c.toNat ≠ 0x7F)

/-! ## Reading -/

/-- The character that a letter after a backslash stands for. -/
def escapedChar? : Char → Option Char
  | 'b' => some '\x08'
  | 't' => some '\t'
  | 'n' => some '\n'
  | 'f' => some '\x0c'
  | 'r' => some '\r'
  | '"' => some '"'
  | '\\' => some '\\'
  | _ => none

/-- The character with a code point. -/
def scalar? (n : Nat) : Option Char :=
  if n.isValidChar then some (Char.ofNat n) else none

/-- Where the machine is in a string. -/
inductive Phase where
  | body
  /-- After a carriage return, which only a newline may follow. -/
  | carriage
  /-- After so many quotes in a row, where one does not end the string. -/
  | quotes (n : Nat)
  /-- After a backslash. -/
  | escape
  /-- Within the code point of an escape: so many digits are still to come. -/
  | code (left : Nat) (value : Nat)
  /-- After a backslash and blanks that a newline has to follow. -/
  | gap
  | gapCarriage
  /-- After a backslash at the end of a line: blanks and newlines do not count. -/
  | indent
  | indentCarriage
deriving DecidableEq, Repr

/-- What one character does. -/
inductive Step where
  /-- The characters belong to the string, and the machine goes on. -/
  | go (out : List Char) (next : Phase)
  /-- The characters end the string; the one at hand is its last quote. -/
  | close (out : List Char)
  /-- The characters end the string; the one at hand stands after it. -/
  | closed (out : List Char)
  | fail

/-- A character in the body of a string. -/
def Form.bodyStep (f : Form) (c : Char) : Step :=
  if c = f.quote then if f.long then .go [] (.quotes 1) else .close []
  else if c = '\\' ∧ f.escapes then .go [] .escape
  else if c = '\n' ∧ f.long then .go ['\n'] .body
  else if c = '\r' ∧ f.long then .go [] .carriage
  else if isPlain c then .go [c] .body
  else .fail

/-- Blanks and newlines up to the newline that ends the line. -/
def gapStep (c : Char) : Step :=
  if c = ' ' ∨ c = '\t' then .go [] .gap
  else if c = '\n' then .go [] .indent
  else if c = '\r' then .go [] .gapCarriage
  else .fail

/-- The next character in a phase. -/
def Form.step (f : Form) (c : Char) : Phase → Step
  | .body => f.bodyStep c
  | .carriage => if c = '\n' then .go ['\n'] .body else .fail
  | .quotes n =>
    if c = f.quote then
      if n < 4 then .go [] (.quotes (n + 1)) else .close (List.replicate (n - 2) f.quote)
    else if 3 ≤ n then .closed (List.replicate (n - 3) f.quote)
    else
      match f.bodyStep c with
      | .go out next => .go (List.replicate n f.quote ++ out) next
      | s => s
  | .escape =>
    if c = 'u' then .go [] (.code 4 0)
    else if c = 'U' then .go [] (.code 8 0)
    else if f.long ∧ (c = ' ' ∨ c = '\t' ∨ c = '\n' ∨ c = '\r') then gapStep c
    else (escapedChar? c).elim .fail fun d => .go [d] .body
  | .code left value =>
    match Text.hexValue? c with
    | none => .fail
    | some d =>
      if 1 < left then .go [] (.code (left - 1) (value * 16 + d))
      else (scalar? (value * 16 + d)).elim .fail fun e => .go [e] .body
  | .gap => gapStep c
  | .gapCarriage => if c = '\n' then .go [] .indent else .fail
  | .indent =>
    if c = ' ' ∨ c = '\t' ∨ c = '\n' then .go [] .indent
    else if c = '\r' then .go [] .indentCarriage
    else f.bodyStep c
  | .indentCarriage => if c = '\n' then .go [] .indent else .fail

/-- Reads on to the end of a string: its characters, and what follows its last quote. -/
def Form.readFrom (f : Form) : Phase → List Char → Option (List Char × List Char)
  | .quotes n, [] => if 3 ≤ n then some (List.replicate (n - 3) f.quote, []) else none
  | _, [] => none
  | p, c :: r =>
    match f.step c p with
    | .go out next => do
      let (s, rest) ← f.readFrom next r
      some (out ++ s, rest)
    | .close out => some (out, r)
    | .closed out => some (out, c :: r)
    | .fail => none

/-- A newline right after three quotes does not count. -/
def dropNewline : List Char → List Char
  | '\n' :: r => r
  | '\r' :: '\n' :: r => r
  | s => s

/-- Reads a string with its quotes; `long` allows three of them. -/
def readQuoted (long : Bool) (s : List Char) : Option (List Char × List Char) :=
  match s with
  | '"' :: '"' :: '"' :: r =>
    if long then Form.longBasic.readFrom .body (dropNewline r) else some ([], '"' :: r)
  | '\'' :: '\'' :: '\'' :: r =>
    if long then Form.longLiteral.readFrom .body (dropNewline r) else some ([], '\'' :: r)
  | '"' :: r => Form.basic.readFrom .body r
  | '\'' :: r => Form.literal.readFrom .body r
  | _ => none

/-! ## Writing -/

/-- A character that no form holds bare: a control character other than tab and newline. -/
def isControl (c : Char) : Bool :=
  (c.toNat < 0x20 && c ≠ '\t' && c ≠ '\n') || c.toNat = 0x7F

/-- The length of the longest run of `q`, when `run` more stand in front. -/
def longestRun (q : Char) (run : Nat) : List Char → Nat
  | [] => run
  | c :: r => if c = q then longestRun q (run + 1) r else max run (longestRun q 0 r)

/-- The form for a text: the first of the four that needs no escape, and otherwise one with escapes.
-/
def Form.ofText (s : List Char) : Form :=
  let control := s.any isControl
  let newline := s.contains '\n'
  let backslash := s.contains '\\'
  let doubles := longestRun '"' 0 s
  let singles := longestRun '\'' 0 s
  if !control ∧ !backslash ∧ doubles = 0 ∧ !newline then .basic
  else if !control ∧ singles = 0 ∧ !newline then .literal
  else if !control ∧ !backslash ∧ doubles ≤ 2 then .longBasic
  else if !control ∧ singles ≤ 2 then .longLiteral
  else if newline then .longBasic
  else .basic

/-- The digit of a value below sixteen. -/
def hexDigit (n : Nat) : Char :=
  if n < 10 then Char.ofNat ('0'.toNat + n) else Char.ofNat ('A'.toNat + (n - 10))

/-- The escape of a character, when it needs one; `bare` says that quotes and newlines do not. -/
def escape? (bareQuote bareNewline : Bool) (c : Char) : Option (List Char) :=
  if c = '"' then if bareQuote then none else some ['\\', '"']
  else if c = '\n' then if bareNewline then none else some ['\\', 'n']
  else if c = '\\' then some ['\\', '\\']
  else if c = '\x08' then some ['\\', 'b']
  else if c = '\t' then some ['\\', 't']
  else if c = '\x0c' then some ['\\', 'f']
  else if c = '\r' then some ['\\', 'r']
  else if isControl c then
    some ['\\', 'u', '0', '0', hexDigit (c.toNat / 16), hexDigit (c.toNat % 16)]
  else none

/-- The body of a string with escapes, after `run` quotes in a row. Between three quotes only a
third quote in a row is escaped. -/
def escapeFrom (long : Bool) (run : Nat) : List Char → List Char
  | [] => []
  | c :: r =>
    match escape? (long && run < 2) long c with
    | some e => e ++ escapeFrom long 0 r
    | none => c :: escapeFrom long (if c = '"' then run + 1 else 0) r

/-- The text in a form. -/
def Form.write (f : Form) (s : List Char) : List Char :=
  f.fence
    ++ (if f.long ∧ s.contains '\n' then ['\n'] else [])
    ++ (if f.escapes then escapeFrom f.long 0 s else s)
    ++ f.fence

/-- The text as a quoted string. -/
def writeQuoted (s : List Char) : List Char :=
  (Form.ofText s).write s

theorem isPlain_of_not_isControl {c : Char} (h : isControl c = false) (n : c ≠ '\n') :
    isPlain c = true := by
  simp only [isControl, isPlain, Bool.or_eq_false_iff, Bool.and_eq_false_iff,
    decide_eq_false_iff_not, Bool.or_eq_true, Bool.and_eq_true, decide_eq_true_eq] at *
  grind

end CommitGate.Toml

import CommitGate.Text.Lines
import CommitGate.Text.Search
import CommitGate.Text.Uppercase

/-!
# Git configuration files

A configuration file of git is a list of lines: headers of sections, settings and everything else.
The names of sections and settings do not depend on case. Values may be quoted, in part or as a
whole. Git knows octets only, so each character stands for one octet here.
-/

namespace CommitGate.Git

/-- A name without regard to case. -/
def folded (s : List Char) : List Char :=
  s.map Char.toLower

/-- A blank of a configuration file. -/
def isBlank (c : Char) : Bool :=
  c = ' ' || c = '\t' || c = '\r'

/-- The name of a setting: its section, with the subsection if there is one, and its own name. -/
structure Key where
  sectionName : List Char
  name : List Char
deriving DecidableEq, Repr

/-- The key that a dotted text names; all up to the last point names the section. -/
def Key.ofText? (s : String) : Option Key :=
  match (Text.splitOn ['.'] s.toList).reverse with
  | name :: first :: rest => some ⟨folded (['.'].intercalate (first :: rest).reverse), folded name⟩
  | _ => none

/-- A line of a configuration file. -/
inductive Line where
  | header (name : List Char) (raw : List Char)
  | setting (name : List Char) (value : List Char) (raw : List Char)
  | other (raw : List Char)
deriving DecidableEq, Repr

/-- The line as it is written. -/
def Line.raw : Line → List Char
  | .header _ r | .setting _ _ r | .other r => r

/-! ## Reading -/

/-- The name of a header: what stands between the brackets, with a point before a quoted subsection.
-/
def headerName (s : List Char) : List Char :=
  let inside := s.takeWhile (· ≠ ']')
  let plain := inside.takeWhile fun c => c ≠ '"' ∧ ¬isBlank c
  match inside.dropWhile (· ≠ '"') with
  | _ :: sub => folded plain ++ '.' :: sub.takeWhile (· ≠ '"')
  | [] => folded plain

/-- Reads a value: `quoted` within quotes, `gap` the blanks that count only when more follows. -/
def readValue (quoted : Bool) (gap : List Char) : List Char → List Char
  | [] => []
  | '\\' :: 'n' :: r => gap ++ '\n' :: readValue quoted [] r
  | '\\' :: 't' :: r => gap ++ '\t' :: readValue quoted [] r
  | '\\' :: 'b' :: r => gap ++ '\x08' :: readValue quoted [] r
  | '\\' :: c :: r => gap ++ c :: readValue quoted [] r
  | c :: r =>
    if c = '"' then gap ++ readValue (!quoted) [] r
    else if !quoted ∧ (c = '#' ∨ c = ';') then []
    else if !quoted ∧ isBlank c then readValue quoted (gap ++ [c]) r
    else gap ++ c :: readValue quoted [] r

/-- A line of a file. -/
def Line.ofRaw (raw : List Char) : Line :=
  match raw.dropWhile isBlank with
  | '[' :: r => .header (headerName r) raw
  | c :: r =>
    if c.isAlpha then
      let name := (c :: r).takeWhile fun c => c.isAlphanum || c == '-'
      match ((c :: r).drop name.length).dropWhile isBlank with
      | '=' :: v => .setting (folded name) (readValue false [] (v.dropWhile isBlank)) raw
      | _ => .setting (folded name) "true".toList raw
    else .other raw
  | [] => .other raw

/-- Nothing is left of a line but a comment. -/
def isIdle (s : List Char) : Bool :=
  match s.dropWhile isBlank with
  | [] => true
  | c :: _ => c = '#' || c = ';'

/-- The line can be understood: a header is closed, and a name is followed by its value or by
nothing. -/
def Line.isSound : Line → Bool
  | .header _ raw => ']' ∈ raw
  | .setting name _ raw =>
    let rest := ((raw.dropWhile isBlank).drop name.length).dropWhile isBlank
    rest.head? = some '=' || isIdle rest
  | .other raw => isIdle raw

/-- The lines of a file. -/
def readConfig (s : List Char) : List Line :=
  (Text.pieces '\n' s).map Line.ofRaw

/-- The settings of a file with their keys, below the section `current`. -/
def settings (current : List Char) : List Line → List (Key × List Char)
  | [] => []
  | .header name _ :: r => settings name r
  | .setting name value _ :: r => (⟨current, name⟩, value) :: settings current r
  | .other _ :: r => settings current r

/-- All values of a key, in the order of the file. -/
def getAll (ls : List Line) (k : Key) : List (List Char) :=
  ((settings [] ls).filter fun s => s.1 = k).map (·.2)

/-- The value of a key: the last one in the file. -/
def get? (ls : List Line) (k : Key) : Option (List Char) :=
  (getAll ls k).getLast?

/-! ## Writing -/

/-- The value as it is written. -/
def writeValue (v : List Char) : List Char :=
  let quote : List Char :=
    if v.head? = some ' ' ∨ v.getLast? = some ' ' ∨ v.any (fun c => c = ';' ∨ c = '#' ∨ c = '\r')
    then ['"'] else []
  quote ++ v.flatMap (fun c =>
    if c = '\n' then ['\\', 'n']
    else if c = '\t' then ['\\', 't']
    else if c = '"' ∨ c = '\\' then ['\\', c]
    else [c]) ++ quote

/-- The line of a setting whose own name is spelled `name`. -/
def writeSetting (name value : List Char) : List Char :=
  '\t' :: name ++ [' ', '=', ' '] ++ writeValue value

/-- The file with the settings of a key taken out, or the one setting replaced. -/
def replaceKey (k : Key) (line : Option Line) (current : List Char) : List Line → List Line
  | [] => []
  | .header name raw :: r => .header name raw :: replaceKey k line name r
  | .setting name value raw :: r =>
    (if k = ⟨current, name⟩ then line.toList else [.setting name value raw])
      ++ replaceKey k line current r
  | .other raw :: r => .other raw :: replaceKey k line current r

/-- The file with a line at the end of the first section of that name, if there is one. -/
def insertInSection (name : List Char) (line : Line) : Bool → List Line → Option (List Line)
  | inside, [] => if inside then some [line] else none
  | inside, .header n raw :: r =>
    if inside then some (line :: .header n raw :: r)
    else (insertInSection name line (n = name) r).map (.header n raw :: ·)
  | inside, l :: r => (insertInSection name line inside r).map (l :: ·)

/-- The header of a section. -/
def writeHeader (name : List Char) : List Char :=
  match name.dropWhile (· ≠ '.') with
  | _ :: sub => '[' :: name.takeWhile (· ≠ '.') ++ [' ', '"'] ++ sub ++ ['"', ']']
  | [] => '[' :: name ++ [']']

/-- The file with a value for a key that is spelled `name`; none when the key has several values
already. -/
def set? (ls : List Line) (k : Key) (name value : List Char) : Option (List Line) :=
  let line := Line.ofRaw (writeSetting name value)
  match getAll ls k with
  | [] =>
    some ((insertInSection k.sectionName line false ls).getD
      (ls ++ [Line.ofRaw (writeHeader k.sectionName), line]))
  | [_] => some (replaceKey k (some line) [] ls)
  | _ => none

/-- The text of a file. -/
def writeConfig (ls : List Line) : List Char :=
  ls.flatMap fun l => l.raw ++ ['\n']

end CommitGate.Git

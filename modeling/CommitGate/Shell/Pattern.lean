/-!
# Patterns of the shell

A pattern is a list of characters, each standing for itself, for any character, for any run of
characters, or for one of a set.
-/

namespace CommitGate.Shell

/-- An element of a pattern. -/
inductive PatternChar where
  | literal (c : Char)
  | any
  | star
  /-- One of the ranges, or none of them. -/
  | set (negated : Bool) (ranges : List (Char × Char))
deriving DecidableEq, Repr

/-- The ends of a list, longest first. -/
def ends {α : Type} : List α → List (List α)
  | [] => [[]]
  | a :: r => (a :: r) :: ends r

namespace PatternChar

/-- The whole text matches. -/
def accepts : List PatternChar → List Char → Bool
  | [], s => s.isEmpty
  | .star :: p, s => (ends s).any (accepts p)
  | .literal c :: p, s =>
    match s with
    | d :: r => c == d && accepts p r
    | [] => false
  | .any :: p, s =>
    match s with
    | _ :: r => accepts p r
    | [] => false
  | .set negated ranges :: p, s =>
    match s with
    | d :: r => (ranges.any fun (a, b) => a ≤ d && d ≤ b) != negated && accepts p r
    | [] => false

/-- The ranges of a set up to its closing bracket, and what follows. A bracket right at the front is
an element. -/
def readSet (first : Bool) : List (Char × Bool) → Option (List (Char × Char) × List (Char × Bool))
  | [] => none
  | (c, quoted) :: ('-', false) :: (d, dq) :: r =>
    if c = ']' ∧ !quoted ∧ !first then some ([], ('-', false) :: (d, dq) :: r)
    else if d = ']' ∧ !dq then some ([(c, c), ('-', '-')], r)
    else (readSet false r).map fun (s, rest) => ((c, d) :: s, rest)
  | (c, quoted) :: r =>
    if c = ']' ∧ !quoted ∧ !first then some ([], r)
    else (readSet false r).map fun (s, rest) => ((c, c) :: s, rest)

/-- The pattern of a text whose quoted characters stand for themselves. -/
def ofText : Nat → List (Char × Bool) → List PatternChar
  | 0, s => s.map fun c => .literal c.1
  | _, [] => []
  | fuel + 1, (c, quoted) :: r =>
    if quoted then .literal c :: ofText fuel r
    else if c = '*' then .star :: ofText fuel r
    else if c = '?' then .any :: ofText fuel r
    else if c = '[' then
      let (negated, inside) := match r with
        | ('!', false) :: r' => (true, r')
        | r' => (false, r')
      match readSet true inside with
      | some (ranges, rest) => .set negated ranges :: ofText fuel rest
      | none => .literal c :: ofText fuel r
    else .literal c :: ofText fuel r

end PatternChar

/-- The pattern of a text whose quoted characters stand for themselves. -/
def patternOf (s : List (Char × Bool)) : List PatternChar :=
  PatternChar.ofText (s.length + 1) s

/-- The text has a character that is special in patterns. -/
def isPattern (s : List (Char × Bool)) : Bool :=
  s.any fun (c, quoted) => !quoted && (c == '*' || c == '?' || c == '[')

end CommitGate.Shell

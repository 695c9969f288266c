import CommitGate.Collect
import CommitGate.Shell.Arithmetic
import CommitGate.Shell.Pattern
import CommitGate.Shell.State

/-!
# Expansion of words

Parameters, commands and expressions in a word are replaced by their values; what comes from them
unquoted is split into fields, and a field with a pattern is replaced by the names that match it.
-/

namespace CommitGate.Shell

open Text (Octets)

/-- A part of the value of a word. -/
inductive Item where
  /-- A character: quoted or not, and from a value that is split or not. -/
  | char (c : Char) (quoted split : Bool)
  /-- There is a field even if it is empty. -/
  | present
  /-- A field ends. -/
  | border
deriving DecidableEq, Repr

/-- The items of a text. -/
def itemsOf (quoted split : Bool) (s : List Char) : List Item :=
  (if quoted then [.present] else []) ++ s.map fun c => .char c quoted split

/-- The items with all characters quoted. -/
def quoteItems (is : List Item) : List Item :=
  .present :: is.map fun | .char c _ _ => .char c true false | i => i

/-- The characters of items, with their quoting. -/
def charsOf (is : List Item) : List (Char × Bool) :=
  is.filterMap fun | .char c q _ => some (c, q) | .border => some (' ', true) | .present => none

/-! ## Parameters -/

/-- The values of a parameter: several for all arguments, none for one that is not set. -/
def parameterValues (s : State) (name : List Char) : List String :=
  match name with
  | ['@'] | ['*'] => s.arguments
  | ['#'] => [toString s.arguments.length]
  | ['?'] => [toString s.status]
  | ['$'] => [toString s.pid]
  | ['-'] => [if s.strict then "e" else ""]
  | ['!'] => []
  | ['0'] => [s.name]
  | cs =>
    if cs.all Char.isDigit then (s.arguments[Text.natOfDigits 10 cs - 1]?).toList
    else (s.value? (String.ofList cs)).toList

/-- The name at the front of the inside of braces, and what follows. -/
def parameterName (s : List Char) : List Char × List Char :=
  match s with
  | c :: r =>
    if isNameStart c then (s.takeWhile isNameChar, s.dropWhile isNameChar)
    else if c.isDigit then (s.takeWhile Char.isDigit, s.dropWhile Char.isDigit)
    else ([c], r)
  | [] => ([], [])

/-- What is done with the value of a parameter. -/
inductive ParameterUse where
  | plain
  | length
  /-- The word stands in when there is no value, or no text when `empty` is set. -/
  | otherwise (empty : Bool) (word : List Char)
  | orAssign (empty : Bool) (word : List Char)
  | orFail (empty : Bool) (word : List Char)
  /-- The word stands in when there is a value. -/
  | instead (empty : Bool) (word : List Char)
  /-- The shortest or longest part that matches is cut off the front or the end. -/
  | cut (front longest : Bool) (word : List Char)
  | unknown
deriving DecidableEq, Repr

/-- The name of a parameter and what is done with it. -/
def parameterUse (body : List Char) : List Char × ParameterUse :=
  match body with
  | '#' :: c :: r => (c :: r, .length)
  | body =>
    let (name, rest) := parameterName body
    (name, match rest with
      | [] => .plain
      | ':' :: '-' :: w => .otherwise true w
      | '-' :: w => .otherwise false w
      | ':' :: '=' :: w => .orAssign true w
      | '=' :: w => .orAssign false w
      | ':' :: '?' :: w => .orFail true w
      | '?' :: w => .orFail false w
      | ':' :: '+' :: w => .instead true w
      | '+' :: w => .instead false w
      | '%' :: '%' :: w => .cut false true w
      | '%' :: w => .cut false false w
      | '#' :: '#' :: w => .cut true true w
      | '#' :: w => .cut true false w
      | _ => .unknown)

/-- The text without the part at its front or end that matches. -/
def cutMatch (front longest : Bool) (p : List PatternChar) (s : List Char) : List Char :=
  let lengths := if longest then (List.range (s.length + 1)).reverse else List.range (s.length + 1)
  match lengths.find? fun n =>
      PatternChar.accepts p (if front then s.take n else s.drop (s.length - n)) with
  | some n => if front then s.drop n else s.take (s.length - n)
  | none => s

/-- The octets of a command's output as it stands in a word: without newlines at the end. -/
def outputText (o : Octets) : List Char :=
  Text.wide ((o.reverse.dropWhile (· = 10)).reverse.filter (· ≠ 0))

/-! ## Words -/

/-- The value of a variable in an expression. -/
def numericValue (s : State) (name : String) : Int :=
  match s.value? name with
  | some v =>
    match Text.stripped v.toList with
    | '-' :: r => -((numeral? r).getD 0)
    | r => (numeral? r).getD 0
  | none => 0

/-- The items of the segments of a word. `output` carries out the script of a command and gives its
output. -/
def expandSegments (output : List Char → State → Octets × State) :
    Nat → List Segment → State → Except String (List Item) × State
  | 0, _, s => (.ok [], s)
  | _, [], s => (.ok [], s)
  | fuel + 1, seg :: segs, s =>
    let (head, s) : Except String (List Item) × State :=
      match seg with
      | .text t quoted => (.ok (itemsOf quoted false t), s)
      | .command script quoted =>
        let (o, s) := output script s
        (.ok (itemsOf quoted (!quoted) (outputText o)), s)
      | .arithmetic body quoted =>
        match expandSegments output fuel (wordOf body) s with
        | (.error e, s) => (.error e, s)
        | (.ok is, s) =>
          match arithmetic? (numericValue s) ((charsOf is).map (·.1)) with
          | some n => (.ok (itemsOf quoted (!quoted) (toString n).toList), s)
          | none =>
            (.error ("arithmetic expression: expecting primary: \"" ++ String.ofList body
              ++ "\""), s)
      | .parameter body quoted =>
        let (name, use) := parameterUse body
        let values := parameterValues s name
        let value := " ".intercalate values
        let plain : List Item :=
          if name = ['@'] ∧ quoted then
            ((values.map fun v => itemsOf true false v.toList).intersperse [.border]).flatten
          else itemsOf quoted (!quoted) value.toList
        let isSet := fun (empty : Bool) => values ≠ [] ∧ !(empty && value = "")
        let word := fun (w : List Char) (s : State) =>
          match expandSegments output fuel (wordOf w) s with
          | (.ok is, s) => (.ok (if quoted then quoteItems is else is), s)
          | r => r
        match use with
        | .plain => (.ok plain, s)
        | .length => (.ok (itemsOf quoted (!quoted) (toString value.length).toList), s)
        | .otherwise empty w => if isSet empty then (.ok plain, s) else word w s
        | .instead empty w => if isSet empty then word w s else (.ok (itemsOf quoted false []), s)
        | .orAssign empty w =>
          if isSet empty then (.ok plain, s)
          else
            match word w s with
            | (.ok is, s) =>
              let text := String.ofList ((charsOf is).map (·.1))
              (.ok is, s.assign (String.ofList name) text)
            | r => r
        | .orFail empty w =>
          if isSet empty then (.ok plain, s)
          else
            match word w s with
            | (.ok is, s) =>
              let text := String.ofList ((charsOf is).map (·.1))
              let reason := if w = [] then "parameter not set" else text
              (.error (String.ofList name ++ ": " ++ reason), s)
            | r => r
        | .cut front longest w =>
          match word w s with
          | (.ok is, s) =>
            let left := cutMatch front longest (patternOf (charsOf is)) value.toList
            (.ok (itemsOf quoted (!quoted) left), s)
          | r => r
        | .unknown => (.error "Bad substitution", s)
    match head with
    | .error e => (.error e, s)
    | .ok is =>
      match expandSegments output fuel segs s with
      | (.ok rest, s) => (.ok (is ++ rest), s)
      | r => r

/-- The word with its home directory in place of a tilde. -/
def expandTilde (s : State) : Word → Word
  | .text ('~' :: r) false :: segs =>
    if r = [] ∧ segs = [] ∨ r.head? = some '/' then
      match s.value? "HOME" with
      | some home => .text home.toList true :: .text r false :: segs
      | none => .text ('~' :: r) false :: segs
    else .text ('~' :: r) false :: segs
  | w => w

/-- How deep expansions go. -/
def expansionFuel : Nat := 100000

/-- The items of a word. -/
def expandWord (output : List Char → State → Octets × State) (w : Word) (s : State) :
    Except String (List Item) × State :=
  expandSegments output expansionFuel (expandTilde s w) s

/-! ## Fields -/

/-- The fields of items: characters of values that are split end a field when they are separators.
-/
def fieldsFrom (separators : List Char) (current : Option (List (Char × Bool))) :
    List Item → List (List (Char × Bool))
  | [] => current.toList.map List.reverse
  | .border :: r => current.toList.map List.reverse ++ fieldsFrom separators none r
  | .present :: r => fieldsFrom separators (some (current.getD [])) r
  | .char c quoted split :: r =>
    if split ∧ !quoted ∧ c ∈ separators then
      current.toList.map List.reverse ++ fieldsFrom separators none r
    else fieldsFrom separators (some ((c, quoted) :: current.getD [])) r

/-- The fields of items. -/
def fieldsOf (s : State) (is : List Item) : List (List (Char × Bool)) :=
  fieldsFrom ((s.value? "IFS").getD " \t\n").toList none is

/-- The components of a field, between slashes. -/
def fieldComponents : List (Char × Bool) → List (List (Char × Bool))
  | [] => [[]]
  | (c, q) :: r =>
    if c = '/' then [] :: fieldComponents r
    else
      match fieldComponents r with
      | [] => [[(c, q)]]
      | p :: ps => ((c, q) :: p) :: ps

/-- The names in a directory that match, in order. -/
def matchingNames (h : Host) (directory : String) (p : List (Char × Bool)) : List String :=
  match h.listing (.ofWide (if directory = "" then "." else directory)) with
  | .error _ => []
  | .ok t =>
    let hidden := p.head?.any fun c => c.1 = '.'
    let found := t.names.filter fun n =>
      PatternChar.accepts (patternOf p) n.wide.toList && (hidden || n.wide.toList.head? ≠ some '.')
    (Tree.sortNamed (found.map fun n => (n, ()))).map fun n => n.1.wide

/-- The paths that match the components after a beginning. -/
def matchingPaths (h : Host) : List (List (Char × Bool)) → List String → List String
  | [], found => found
  | [p], found =>
    found.flatMap fun d =>
      if isPattern p then (matchingNames h d p).map (d ++ ·)
      else
        let path := d ++ String.ofList (p.map (·.1))
        if h.pathExists (.ofWide path) then [path] else []
  | p :: ps, found =>
    matchingPaths h ps <| found.flatMap fun d =>
      if isPattern p then (matchingNames h d p).map fun n => d ++ n ++ "/"
      else [d ++ String.ofList (p.map (·.1)) ++ "/"]

/-- The texts that a field stands for. -/
def textsOf (h : Host) (field : List (Char × Bool)) : List String :=
  let plain := String.ofList (field.map (·.1))
  if isPattern field then
    match matchingPaths h (fieldComponents field) [""] with
    | [] => [plain]
    | found => found
  else [plain]

/-- The fields of words. -/
def expandFields (output : List Char → State → Octets × State) :
    List Word → State → Except String (List String) × State
  | [], s => (.ok [], s)
  | w :: ws, s =>
    match expandWord output w s with
    | (.error e, s) => (.error e, s)
    | (.ok is, s) =>
      match expandFields output ws s with
      | (.error e, s) => (.error e, s)
      | (.ok rest, s) => (.ok ((fieldsOf s is).flatMap (textsOf s.host) ++ rest), s)

/-- The text of a word that is not split. -/
def expandText (output : List Char → State → Octets × State) (w : Word) (s : State) :
    Except String String × State :=
  match expandWord output w s with
  | (.error e, s) => (.error e, s)
  | (.ok is, s) => (.ok (String.ofList ((charsOf is).map (·.1))), s)

end CommitGate.Shell

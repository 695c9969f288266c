/-!
# Words of the shell

A script is cut into words, operators and newlines. A word is a sequence of segments: text,
parameters, and substitutions of commands and arithmetic, each quoted or not. The inside of a
substitution stays text until it is carried out.
-/

namespace CommitGate.Shell

/-! ## Words -/

/-- A part of a word. -/
inductive Segment where
  | text (s : List Char) (quoted : Bool)
  /-- A parameter: its name, or what stands between the braces. -/
  | parameter (body : List Char) (quoted : Bool)
  /-- The output of a command. -/
  | command (script : List Char) (quoted : Bool)
  /-- The value of an arithmetic expression. -/
  | arithmetic (body : List Char) (quoted : Bool)
deriving DecidableEq, Repr

/-- A word. -/
abbrev Word := List Segment

/-- The text of a word that has no quotes and nothing to substitute. -/
def Word.bare? : Word → Option String
  | [.text s false] => some (String.ofList s)
  | _ => none

/-- A character that may begin a name. -/
def isNameStart (c : Char) : Bool :=
  c.isAlpha || c == '_'

/-- A character that may stand in a name. -/
def isNameChar (c : Char) : Bool :=
  c.isAlphanum || c == '_'

/-- The name and the value of a word that assigns a variable. -/
def Word.assignment? : Word → Option (String × Word)
  | .text s false :: r =>
    let name := s.takeWhile isNameChar
    match s.dropWhile isNameChar with
    | '=' :: v =>
      if name.head?.any isNameStart then
        some (String.ofList name, (if v = [] then [] else [.text v false]) ++ r)
      else none
    | _ => none
  | _ => none

/-! ## Substitutions -/

/-- How the characters of a nested text are read. -/
inductive Quoting where
  | plain
  | single
  | double
deriving DecidableEq, Repr

/-- The text up to the bracket that closes it, and what follows. Brackets inside and quotes are
passed over. -/
def takeNested (opening closing : Char) (depth : Nat) (q : Quoting) :
    List Char → Option (List Char × List Char)
  | [] => none
  | '\\' :: c :: r =>
    if q = .single then do
      if c = '\'' then
        let (s, rest) ← takeNested opening closing depth .plain r
        some ('\\' :: c :: s, rest)
      else
        let (s, rest) ← takeNested opening closing depth q r
        some ('\\' :: c :: s, rest)
    else do
      let (s, rest) ← takeNested opening closing depth q r
      some ('\\' :: c :: s, rest)
  | c :: r =>
    let go := fun (d : Nat) (q : Quoting) =>
      (takeNested opening closing d q r).map fun (s, rest) => (c :: s, rest)
    match q with
    | .single => go depth (if c = '\'' then .plain else .single)
    | .double => go depth (if c = '"' then .plain else .double)
    | .plain =>
      if c = '\'' then go depth .single
      else if c = '"' then go depth .double
      else if c = opening then go (depth + 1) q
      else if c = closing then
        match depth with
        | 0 => some ([], r)
        | d + 1 => go d q
      else go depth q

/-- The text up to the next accent that is not escaped, and what follows. -/
def takeAccent : List Char → Option (List Char × List Char)
  | [] => none
  | '\x60' :: r => some ([], r)
  | '\\' :: c :: r => do
    let (s, rest) ← takeAccent r
    some (if c = '\x60' ∨ c = '\\' ∨ c = '$' then c :: s else '\\' :: c :: s, rest)
  | c :: r => do
    let (s, rest) ← takeAccent r
    some (c :: s, rest)

/-- A parameter with a name of one sign. -/
def isSpecial (c : Char) : Bool :=
  c.isDigit || c ∈ ['@', '*', '#', '?', '-', '$', '!']

/-- Reads what follows a dollar sign. -/
def readDollar (quoted : Bool) (s : List Char) : Option (Segment × List Char) :=
  match s with
  | '(' :: '(' :: r =>
    match takeNested '(' ')' 0 .plain r with
    | some (body, ')' :: rest) => some (.arithmetic body quoted, rest)
    | _ =>
      (takeNested '(' ')' 0 .plain ('(' :: r)).map fun (body, rest) => (.command body quoted, rest)
  | '(' :: r => (takeNested '(' ')' 0 .plain r).map fun (body, rest) => (.command body quoted, rest)
  | '\x7b' :: r =>
    (takeNested '\x7b' '\x7d' 0 .plain r).map fun (body, rest) => (.parameter body quoted, rest)
  | c :: r =>
    if isNameStart c then
      some (.parameter ((c :: r).takeWhile isNameChar) quoted, (c :: r).dropWhile isNameChar)
    else if isSpecial c then some (.parameter [c] quoted, r)
    else some (.text ['$'] quoted, c :: r)
  | [] => some (.text ['$'] quoted, [])

/-! ## Reading a word -/

/-- Reads up to a closing double quote. -/
def readDouble : Nat → List Char → Option (List Segment × List Char)
  | 0, _ => none
  | _, [] => none
  | _, '"' :: r => some ([], r)
  | fuel + 1, '\\' :: '\n' :: r => readDouble fuel r
  | fuel + 1, '\\' :: c :: r => do
    let (ss, rest) ← readDouble fuel r
    some (.text (if c ∈ ['$', '\x60', '"', '\\'] then [c] else ['\\', c]) true :: ss, rest)
  | fuel + 1, '$' :: r => do
    let (seg, r) ← readDollar true r
    let (ss, rest) ← readDouble fuel r
    some (seg :: ss, rest)
  | fuel + 1, '\x60' :: r => do
    let (body, r) ← takeAccent r
    let (ss, rest) ← readDouble fuel r
    some (.command body true :: ss, rest)
  | fuel + 1, c :: r => do
    let (ss, rest) ← readDouble fuel r
    some (.text [c] true :: ss, rest)

/-- A character that ends a word. -/
def endsWord (c : Char) : Bool :=
  c ∈ [' ', '\t', '\n', ';', '&', '|', '<', '>', '(', ')']

/-- Joins neighbouring texts. -/
def joinText : List Segment → List Segment
  | .text s q :: r =>
    match joinText r with
    | .text t q' :: r' => if q = q' then .text (s ++ t) q :: r' else .text s q :: .text t q' :: r'
    | r' => .text s q :: r'
  | seg :: r => seg :: joinText r
  | [] => []

/-- Reads segments up to the end of a word, or of the text when `whole` is set. -/
def readSegments (whole : Bool) : Nat → List Char → Option (List Segment × List Char)
  | 0, s => some ([], s)
  | _, [] => some ([], [])
  | fuel + 1, c :: r =>
    if !whole ∧ endsWord c then some ([], c :: r)
    else do
      let (segs, r) ← (match c, r with
        | '\\', '\n' :: r => some ([], r)
        | '\\', d :: r => some ([.text [d] true], r)
        | '\'', r =>
          match r.dropWhile (· ≠ '\'') with
          | _ :: rest => some ([.text (r.takeWhile (· ≠ '\'')) true], rest)
          | [] => none
        | '"', r => (readDouble (r.length + 1) r).map fun (ss, rest) => (.text [] true :: ss, rest)
        | '$', r => (readDollar false r).map fun (seg, rest) => ([seg], rest)
        | '\x60', r => (takeAccent r).map fun (body, rest) => ([.command body false], rest)
        | c, r => some ([.text [c] false], r) : Option (List Segment × List Char))
      let (ss, rest) ← readSegments whole fuel r
      some (segs ++ ss, rest)

/-- Reads a word from the front of a text. -/
def readWord (s : List Char) : Option (Word × List Char) :=
  (readSegments false (s.length + 1) s).map fun (w, rest) => (joinText w, rest)

/-- A whole text as one word. -/
def wordOf (s : List Char) : Word :=
  ((readSegments true (s.length + 1) s).map fun (w, _) => joinText w).getD [.text s true]

/-! ## Tokens -/

/-- A token of a script. -/
inductive Token where
  | word (w : Word)
  /-- A number right before a redirection. -/
  | number (n : Nat)
  | operator (s : String)
  | newline
  /-- Where the text cannot be read on. -/
  | fault (message : String)
deriving DecidableEq, Repr

/-- A token with the number of its line. -/
structure Lexeme where
  token : Token
  line : Nat
deriving DecidableEq, Repr

/-- The operators, longer ones before their beginnings. -/
def operators : List String :=
  ["&&", "||", ";;", ">>", "<&", ">&", "<>", ">|", "<<", ";", "&", "|", "<", ">", "(", ")"]

/-- The operator in front of a text. -/
def operator? (s : List Char) : Option String :=
  operators.find? fun o => o.toList.isPrefixOf s

/-- The tokens of a script, from a line on. -/
def lexFrom : Nat → Nat → List Char → List Lexeme
  | 0, _, _ => []
  | _, _, [] => []
  | fuel + 1, line, c :: r =>
    if c = '\n' then ⟨.newline, line⟩ :: lexFrom fuel (line + 1) r
    else if c = ' ' ∨ c = '\t' then lexFrom fuel line r
    else if c = '\\' ∧ r.head? = some '\n' then lexFrom fuel (line + 1) r.tail
    else if c = '#' then lexFrom fuel line (r.dropWhile (· ≠ '\n'))
    else
      match operator? (c :: r) with
      | some o => ⟨.operator o, line⟩ :: lexFrom fuel line ((c :: r).drop o.length)
      | none =>
        match readWord (c :: r) with
        | none => [⟨.fault "Unterminated quoted string", line⟩]
        | some (w, rest) =>
          let lines := ((c :: r).take ((c :: r).length - rest.length)).count '\n'
          let digits := (c :: r).takeWhile Char.isDigit
          let redirects := rest.head? = some '<' ∨ rest.head? = some '>'
          let token : Token :=
            if redirects ∧ digits ≠ [] ∧ digits.length + rest.length = (c :: r).length then
              .number (digits.foldl (fun n d => n * 10 + (d.toNat - 48)) 0)
            else .word w
          ⟨token, line⟩ :: lexFrom fuel (line + lines) rest

/-- The tokens of a script. -/
def lex (s : List Char) : List Lexeme :=
  lexFrom (s.length + 1) 1 s

end CommitGate.Shell

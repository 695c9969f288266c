import CommitGate.Shell.Word

/-!
# Commands of the shell

The tokens of a script form commands: simple ones, pipelines, lists, and the compound ones with
reserved words. A script is parsed a line at a time, so that the lines before a fault are still
carried out.
-/

namespace CommitGate.Shell

/-- How a redirection opens its file. -/
inductive RedirectKind where
  | read
  | write
  | append
  | readWrite
  /-- The number of another descriptor follows, or a dash. -/
  | duplicate
  /-- Text from the script itself; its end is not looked for. -/
  | here
deriving DecidableEq, Repr

/-- A redirection of a descriptor. -/
structure Redirect where
  descriptor : Nat
  kind : RedirectKind
  target : Word
deriving DecidableEq, Repr

/-- A command. -/
inductive Command where
  | nothing
  | simple (line : Nat) (assignments : List (String × Word)) (words : List Word)
    (redirects : List Redirect)
  | redirected (c : Command) (redirects : List Redirect)
  | not (c : Command)
  | pipe (left right : Command)
  | both (left right : Command)
  | either (left right : Command)
  | seq (left right : Command)
  | background (c : Command)
  | subshell (c : Command)
  | conditional (condition thenPart elsePart : Command)
  | loop (untilTrue : Bool) (condition body : Command)
  | each (name : String) (words : Option (List Word)) (body : Command)
  /-- The first body whose patterns match the word; `rest` holds the further cases. -/
  | cases (subject : Word) (patterns : List Word) (body : Command) (rest : Command)
  | define (name : String) (body : Command)
deriving DecidableEq, Repr

/-- Why a script cannot be parsed. -/
structure SyntaxFault where
  line : Nat
  message : String
deriving DecidableEq, Repr

/-- What a token is called in a message. -/
def Token.display : Token → String
  | .word w => match w.bare? with | some s => "\"" ++ s ++ "\"" | none => "word"
  | .number _ => "redirection"
  | .operator s => if s = ">" ∨ s = "<" ∨ s = ">>" then "redirection" else "\"" ++ s ++ "\""
  | .newline => "newline"
  | .fault m => m

/-- The fault of finding these tokens; `expected` names what should stand there. -/
def unexpected {α : Type} (expected : Option String) (ts : List Lexeme) :
    Except SyntaxFault (α × List Lexeme) :=
  let more := expected.elim "" fun e => " (expecting \"" ++ e ++ "\")"
  match ts with
  | [] => .error ⟨1, "end of file unexpected" ++ more⟩
  | t :: _ =>
    match t.token with
    | .fault m => .error ⟨t.line, m⟩
    | token => .error ⟨t.line, token.display ++ " unexpected" ++ more⟩

/-- The tokens after the newlines in front. -/
def skipNewlines : List Lexeme → List Lexeme
  | ⟨.newline, _⟩ :: r => skipNewlines r
  | ts => ts

/-- The bare word in front. -/
def bareWord? : List Lexeme → Option String
  | ⟨.word w, _⟩ :: _ => w.bare?
  | _ => none

/-- The operator in front. -/
def frontOperator? : List Lexeme → Option String
  | ⟨.operator s, _⟩ :: _ => some s
  | _ => none

/-- Passes over a reserved word. -/
def expectWord (s : String) (ts : List Lexeme) : Except SyntaxFault (List Lexeme) :=
  if bareWord? ts = some s then .ok ts.tail
  else (unexpected (some s) ts).map fun (u : Unit × _) => u.2

/-- Passes over an operator. -/
def expectOperator (s : String) (ts : List Lexeme) : Except SyntaxFault (List Lexeme) :=
  if frontOperator? ts = some s then .ok ts.tail
  else (unexpected (some s) ts).map fun (u : Unit × _) => u.2

/-- Words that close a list of commands. -/
def closingWords : List String := ["then", "do", "done", "fi", "else", "elif", "esac", "\x7d"]

/-- A list of commands ends here. -/
def endsList (ts : List Lexeme) : Bool :=
  ts.isEmpty || (frontOperator? ts).any (fun o => o ∈ [")", ";;"])
    || (bareWord? ts).any (· ∈ closingWords)

/-- The kind of a redirection, and the descriptor that it is for by itself. -/
def redirectOf? : String → Option (RedirectKind × Nat)
  | "<" => some (.read, 0)
  | ">" => some (.write, 1)
  | ">|" => some (.write, 1)
  | ">>" => some (.append, 1)
  | "<>" => some (.readWrite, 0)
  | "<&" => some (.duplicate, 0)
  | ">&" => some (.duplicate, 1)
  | "<<" => some (.here, 0)
  | _ => none

/-- Parses a redirection, if one stands in front. -/
def parseRedirect? (ts : List Lexeme) : Option (Except SyntaxFault (Redirect × List Lexeme)) :=
  let (number, body) : Option Nat × List Lexeme :=
    match ts with
    | ⟨.number n, _⟩ :: r => (some n, r)
    | ts => (none, ts)
  ((frontOperator? body).bind redirectOf?).map fun (kind, own) =>
    match body.tail with
    | ⟨.word w, _⟩ :: r => .ok (⟨number.getD own, kind, w⟩, r)
    | r => unexpected none r

/-- Parses redirections. -/
def parseRedirects : Nat → List Lexeme → Except SyntaxFault (List Redirect × List Lexeme)
  | 0, ts => .ok ([], ts)
  | fuel + 1, ts =>
    match parseRedirect? ts with
    | none => .ok ([], ts)
    | some p => do
      let (r, ts) ← p
      let (rs, ts) ← parseRedirects fuel ts
      .ok (r :: rs, ts)

/-- Parses the words and redirections of a simple command. -/
def parseSimple (line : Nat) :
    Nat → List (String × Word) → List Word → List Redirect → List Lexeme →
      Except SyntaxFault (Command × List Lexeme)
  | 0, as, ws, rs, ts => .ok (.simple line as ws rs, ts)
  | fuel + 1, as, ws, rs, ts =>
    match parseRedirect? ts with
    | some p => do
      let (r, ts) ← p
      parseSimple line fuel as ws (rs ++ [r]) ts
    | none =>
      match ts with
      | ⟨.word w, _⟩ :: r =>
        match ws, w.assignment? with
        | [], some a => parseSimple line fuel (as ++ [a]) ws rs r
        | _, _ => parseSimple line fuel as (ws ++ [w]) rs r
      | ts => .ok (.simple line as ws rs, ts)

/-- Parses words up to something else. -/
def takeWords : List Lexeme → List Word × List Lexeme
  | ⟨.word w, _⟩ :: r => let (ws, rest) := takeWords r; (w :: ws, rest)
  | ts => ([], ts)

/-- Parses the patterns of a case, with bars between them. -/
def takePatterns : List Lexeme → List Word × List Lexeme
  | ⟨.word w, _⟩ :: ⟨.operator "|", _⟩ :: r => let (ws, rest) := takePatterns r; (w :: ws, rest)
  | ⟨.word w, _⟩ :: r => ([w], r)
  | ts => ([], ts)

mutual

/-- Parses a list of commands up to a closing word, bracket or the end. -/
def parseList : Nat → List Lexeme → Except SyntaxFault (Command × List Lexeme)
  | 0, ts => unexpected none ts
  | fuel + 1, ts =>
    let ts := skipNewlines ts
    if endsList ts then .ok (.nothing, ts)
    else do
      let (c, ts) ← parseAndOr fuel ts
      match ts with
      | ⟨.newline, _⟩ :: r => do
        let (d, ts) ← parseList fuel r
        .ok (.seq c d, ts)
      | ⟨.operator ";", _⟩ :: r => do
        let (d, ts) ← parseList fuel r
        .ok (.seq c d, ts)
      | ⟨.operator "&", _⟩ :: r => do
        let (d, ts) ← parseList fuel r
        .ok (.seq (.background c) d, ts)
      | ts => .ok (c, ts)

/-- Parses pipelines joined by `&&` and `||`, which bind to the left. -/
def parseAndOr : Nat → List Lexeme → Except SyntaxFault (Command × List Lexeme)
  | 0, ts => unexpected none ts
  | fuel + 1, ts => do
    let (c, ts) ← parsePipeline fuel ts
    parseMore fuel c ts

/-- Parses what `&&` and `||` add to a command. -/
def parseMore : Nat → Command → List Lexeme → Except SyntaxFault (Command × List Lexeme)
  | 0, _, ts => unexpected none ts
  | fuel + 1, c, ts =>
    match ts with
    | ⟨.operator "&&", _⟩ :: r => do
      let (d, ts) ← parsePipeline fuel (skipNewlines r)
      parseMore fuel (.both c d) ts
    | ⟨.operator "||", _⟩ :: r => do
      let (d, ts) ← parsePipeline fuel (skipNewlines r)
      parseMore fuel (.either c d) ts
    | ts => .ok (c, ts)

/-- Parses a pipeline, negated or not. -/
def parsePipeline : Nat → List Lexeme → Except SyntaxFault (Command × List Lexeme)
  | 0, ts => unexpected none ts
  | fuel + 1, ts =>
    if bareWord? ts = some "!" then do
      let (c, ts) ← parsePipeline fuel ts.tail
      .ok (.not c, ts)
    else do
      let (c, ts) ← parseCommand fuel ts
      parsePipes fuel c ts

/-- Parses what bars add to a command. -/
def parsePipes : Nat → Command → List Lexeme → Except SyntaxFault (Command × List Lexeme)
  | 0, _, ts => unexpected none ts
  | fuel + 1, c, ts =>
    match ts with
    | ⟨.operator "|", _⟩ :: r => do
      let (d, ts) ← parseCommand fuel (skipNewlines r)
      parsePipes fuel (.pipe c d) ts
    | ts => .ok (c, ts)

/-- Parses a command. -/
def parseCommand : Nat → List Lexeme → Except SyntaxFault (Command × List Lexeme)
  | 0, ts => unexpected none ts
  | fuel + 1, ts =>
    match ts with
    | ⟨.operator "(", _⟩ :: r => do
      let (c, ts) ← parseList fuel r
      parseTail fuel (.subshell c) (← expectOperator ")" ts)
    | ⟨.word w, line⟩ :: r =>
      match w.bare? with
      | some "\x7b" => do
        let (c, ts) ← parseList fuel r
        parseTail fuel c (← expectWord "\x7d" ts)
      | some "if" => do
        let (c, ts) ← parseIf fuel r
        parseTail fuel c ts
      | some "while" => do
        let (condition, ts) ← parseList fuel r
        let (body, ts) ← parseDo fuel ts
        parseTail fuel (.loop false condition body) ts
      | some "until" => do
        let (condition, ts) ← parseList fuel r
        let (body, ts) ← parseDo fuel ts
        parseTail fuel (.loop true condition body) ts
      | some "for" =>
        match r with
        | ⟨.word name, _⟩ :: r => do
          let (words, ts) : Option (List Word) × List Lexeme :=
            if bareWord? (skipNewlines r) = some "in" then
              let (ws, ts) := takeWords (skipNewlines r).tail
              (some ws, ts)
            else (none, r)
          let ts := if frontOperator? ts = some ";" then ts.tail else ts
          let (body, ts) ← parseDo fuel (skipNewlines ts)
          parseTail fuel (.each (name.bare?.getD "") words body) ts
        | r => unexpected none r
      | some "case" =>
        match r with
        | ⟨.word subject, _⟩ :: r => do
          let ts ← expectWord "in" (skipNewlines r)
          let (c, ts) ← parseCases fuel subject ts
          parseTail fuel c ts
        | r => unexpected none r
      | bare =>
        match bare, r with
        | some name, ⟨.operator "(", _⟩ :: ⟨.operator ")", _⟩ :: r => do
          let (body, ts) ← parseCommand fuel (skipNewlines r)
          .ok (.define name body, ts)
        | _, _ =>
          if bare.any (· ∈ closingWords) then unexpected none ts
          else parseSimple line ts.length [] [] [] ts
    | ⟨.number _, line⟩ :: _ => parseSimple line ts.length [] [] [] ts
    | ⟨.operator o, line⟩ :: _ =>
      if (redirectOf? o).isSome then parseSimple line ts.length [] [] [] ts else unexpected none ts
    | ts => unexpected none ts

/-- Parses the redirections after a compound command. -/
def parseTail : Nat → Command → List Lexeme → Except SyntaxFault (Command × List Lexeme)
  | _, c, ts => do
    let (rs, ts) ← parseRedirects ts.length ts
    .ok (if rs = [] then c else .redirected c rs, ts)

/-- Parses `do`, a list and `done`. -/
def parseDo : Nat → List Lexeme → Except SyntaxFault (Command × List Lexeme)
  | 0, ts => unexpected none ts
  | fuel + 1, ts => do
    let (c, ts) ← parseList fuel (← expectWord "do" ts)
    .ok (c, ← expectWord "done" ts)

/-- Parses what follows `if` or `elif`. -/
def parseIf : Nat → List Lexeme → Except SyntaxFault (Command × List Lexeme)
  | 0, ts => unexpected none ts
  | fuel + 1, ts => do
    let (condition, ts) ← parseList fuel ts
    let (thenPart, ts) ← parseList fuel (← expectWord "then" ts)
    if bareWord? ts = some "elif" then
      let (elsePart, ts) ← parseIf fuel ts.tail
      .ok (.conditional condition thenPart elsePart, ts)
    else if bareWord? ts = some "else" then
      let (elsePart, ts) ← parseList fuel ts.tail
      .ok (.conditional condition thenPart elsePart, ← expectWord "fi" ts)
    else .ok (.conditional condition thenPart .nothing, ← expectWord "fi" ts)

/-- Parses cases up to `esac`. -/
def parseCases : Nat → Word → List Lexeme → Except SyntaxFault (Command × List Lexeme)
  | 0, _, ts => unexpected none ts
  | fuel + 1, subject, ts =>
    let ts := skipNewlines ts
    if bareWord? ts = some "esac" then .ok (.nothing, ts.tail)
    else do
      let (patterns, ts) := takePatterns (if frontOperator? ts = some "(" then ts.tail else ts)
      let (body, ts) ← parseList fuel (← expectOperator ")" ts)
      if frontOperator? ts = some ";;" then
        let (rest, ts) ← parseCases fuel subject ts.tail
        .ok (.cases subject patterns body rest, ts)
      else .ok (.cases subject patterns body .nothing, ← expectWord "esac" ts)

end

/-- Parses the commands of one line, further lines only as far as the commands go on there. -/
def parseLine : Nat → List Lexeme → Except SyntaxFault (Command × List Lexeme)
  | _, [] => .ok (.nothing, [])
  | 0, ts => unexpected none ts
  | fuel + 1, ts =>
    match ts with
    | ⟨.newline, _⟩ :: r => .ok (.nothing, r)
    | ts => do
      let (c, rest) ← parseAndOr (20 * ts.length + 20) ts
      match rest with
      | [] => .ok (c, [])
      | ⟨.newline, _⟩ :: r => .ok (c, r)
      | ⟨.operator ";", _⟩ :: r => do
        let (d, r) ← parseLine fuel r
        .ok (.seq c d, r)
      | ⟨.operator "&", _⟩ :: r => do
        let (d, r) ← parseLine fuel r
        .ok (.seq (.background c) d, r)
      | r => unexpected none r

end CommitGate.Shell

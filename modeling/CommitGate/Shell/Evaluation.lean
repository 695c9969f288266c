import CommitGate.Shell.BuiltIn
import CommitGate.Shell.Lookup
import CommitGate.Shell.Signal

/-!
# Carrying out commands

What a shell has to do is a task. A step of a task may hand on further tasks, so each construct of
the language is a function that gets the rest of the run as an argument; `carryOut` ties them
together, with fuel for the tasks that are handed on inside one another. A shell without fuel counts
as one whose time is up. Pipelines run from left to right, which makes no difference to what they
write.
-/

namespace CommitGate.Shell

open Text (Octets)

/-- Something to be carried out. -/
inductive Task where
  | command (c : Command)
  /-- The rounds of a loop; `last` is the status of the round before. -/
  | rounds (untilTrue : Bool) (condition body : Command) (last : Nat)
  /-- The rounds of a loop over values. -/
  | roundsOver (name : String) (body : Command) (values : List String)
  /-- The lines of a script. -/
  | script (ts : List Lexeme)
  /-- The function, the command of the shell or the program of a name. -/
  | named (line : Nat) (name : String) (args : List String)
  /-- A program in a process of its own. -/
  | program (line : Nat) (name : String) (args : List String)
  /-- A program with more variables. -/
  | environment (line : Nat) (args : List String)
  /-- A new shell with arguments: a text after `-c`, a file, or the standard input. -/
  | shell (args : List String)

/-- What carrying out leads to. -/
abbrev Carrying := State → State × Flow

/-! ## Shells in shells -/

namespace State

/-- The state of a shell after one that it has split off: files, sinks, sources and time go on, all
else is as before. -/
def rejoin (parent child : State) : State :=
  { parent with
    host := { parent.host with tree := child.host.tree }
    sinks := child.sinks
    sources := child.sources
    clock := child.clock
    nextPid := child.nextPid
    status := child.status }

/-- The state in which programs run: they get the exported variables. -/
def forPrograms (s : State) : State :=
  { s with host := s.hostForPrograms }

/-- The state of a new shell that gets the exported variables. -/
def newShell (s : State) (name : String) (arguments : List String) : State :=
  { s with
    host := s.hostForPrograms
    bindings := s.environment
    exported := s.environment.map (·.1)
    functions := []
    name := name
    arguments := arguments
    status := 0
    pid := s.nextPid
    nextPid := s.nextPid + 1
    strict := false
    tested := false }

end State

/-- What stays of the flow of a shell that was split off. -/
def outsideFlow : Flow → Flow
  | .killed pid signal => .killed pid signal
  | .late => .late
  | _ => .go

/-- The flow of a shell after a command: a failure ends a strict shell, and there is no going on
without time. -/
def strictly (r : State × Flow) : State × Flow :=
  match r with
  | (s, .go) =>
    if s.isLate then (s, .late)
    else if s.strict ∧ !s.tested ∧ s.status ≠ 0 then (s, .exit)
    else (s, .go)
  | r => r

/-- Carries out a text in this shell. -/
def carryText (carry : Task → Carrying) (text : List Char) : Carrying := fun s =>
  carry (.script (lex text)) (s.ended 0)

/-- Carries out a text in a new shell. -/
def carryInner (carry : Task → Carrying) (name : String) (args : List String) (text : List Char) :
    Carrying := fun s =>
  let inner := s.newShell name args
  let (done, flow) := carryText carry text inner
  let joined := s.rejoin done
  match flow with
  | .killed pid signal =>
    if pid = inner.pid then (joined.ended (128 + signal), .go) else (joined, flow)
  | .late => (joined, .late)
  | _ => (joined, .go)

/-- The output of a text that is carried out in a shell split off. -/
def outputOf (carry : Task → Carrying) (text : List Char) (s : State) : Octets × State :=
  let (piped, sink) := s.newSink
  let (done, _) := carry (.script (lex text)) (piped.connect 1 (.sink sink))
  let joined := s.rejoin done
  (joined.sinkContent sink, joined)

/-! ## Simple commands -/

/-- Assigns the values of words to variables, unless one of them has none. -/
def assignWords (carry : Task → Carrying) : List (String × Word) → State → Option String × State
  | [], s => (none, s)
  | (name, w) :: as, s =>
    match expandText (outputOf carry) w s with
    | (.error e, s) => (some e, s)
    | (.ok v, s) => assignWords carry as (s.assign name v)

/-- The state after a command with assignments of its own, which hold for that command alone. -/
def takeBack (before done : State) (names : List String) : State :=
  { done with
    bindings := (before.bindings.filter fun v => v.1 ∈ names)
      ++ done.bindings.filter fun v => v.1 ∉ names
    exported := before.exported ++ done.exported.filter fun n => n ∉ names && n ∉ before.exported }

/-- A command stands in the word, whose status is that of the word. -/
def hasCommand (w : Word) : Bool :=
  w.any fun
    | .command _ _ => true
    | _ => false

/-- Carries out the fields of a simple command in a state with its descriptors. Without fields the
status is that of the last command in a word, if there was one. -/
def carryFields (carry : Task → Carrying) (line : Nat) (as : List (String × Word))
    (substituted : Bool) (fields : List String) : Carrying :=
  fun s =>
    match assignWords carry as s with
    | (some e, failed) => ((failed.complain line e).ended 2, .exit)
    | (none, assigned) =>
      match fields with
      | [] =>
        (if substituted || as.any fun a => hasCommand a.2 then assigned else assigned.ended 0, .go)
      | name :: args =>
        let exporting := as.foldl (fun s a => s.exporting a.1) assigned
        let (done, flow) := carry (.named line name args) exporting
        if as = [] then (done, flow) else (takeBack s done (as.map (·.1)), flow)

/-- Carries out a simple command: expands its words, connects its descriptors and runs what it
names. The descriptors are as before afterwards, unless the command is an `exec` without arguments.
-/
def carrySimple (carry : Task → Carrying) (line : Nat) (as : List (String × Word)) (ws : List Word)
    (rs : List Redirect) : Carrying := fun s =>
  match expandFields (outputOf carry) ws s with
  | (.error e, s) => ((s.complain line e).ended 2, .exit)
  | (.ok fields, s) =>
    match redirect (outputOf carry) rs s with
    | (some e, opened) =>
      (({ opened with descriptors := s.descriptors }.complain line e).ended 2, .go)
    | (none, opened) =>
      let (done, flow) := carryFields carry line as (ws.any hasCommand) fields opened
      (if fields = ["exec"] then done else { done with descriptors := s.descriptors }, flow)

/-! ## Compound commands -/

/-- Carries out a command whose failure is no failure of the shell. -/
def carryTested (carry : Task → Carrying) (c : Command) : Carrying := fun s =>
  let (done, flow) := carry (.command c) { s with tested := true }
  ({ done with tested := s.tested }, flow)

/-- Carries out the left side of a pipe, then the right side with its output; both start at the same
time. -/
def carryPipe (carry : Task → Carrying) (left right : Command) : Carrying := fun s =>
  let (piped, sink) := s.newSink
  let (first, flow) := carry (.command left) (piped.connect 1 (.sink sink))
  match outsideFlow flow with
  | .go =>
    let between := piped.rejoin first
    let (fed, source) := between.newSource (between.sinkContent sink)
    let reading := { fed with clock := s.clock }.connect 0 (.source source)
    let (second, flow) := carry (.command right) reading
    let done := s.rejoin second
    strictly ({ done with clock := max first.clock second.clock }, outsideFlow flow)
  | f => (s.rejoin first, f)

/-- One of the patterns of a case accepts the text. -/
def anyAccepts (carry : Task → Carrying) (patterns : List Word) (text : List Char) (s : State) :
    Bool :=
  patterns.any fun p =>
    match (expandWord (outputOf carry) p s).1 with
    | .ok is => PatternChar.accepts (patternOf (charsOf is)) text
    | .error _ => false

/-- Carries out a command. -/
def carryCommand (carry : Task → Carrying) (c : Command) : Carrying := fun s =>
  match c with
  | .nothing => (s, .go)
  | .simple line as ws rs => strictly (carrySimple carry line as ws rs s)
  | .redirected c rs =>
    match redirect (outputOf carry) rs s with
    | (some e, s) => ((s.complain 1 e).ended 2, .go)
    | (none, opened) =>
      let (done, flow) := carry (.command c) opened
      ({ done with descriptors := s.descriptors }, flow)
  | .not c =>
    let (done, flow) := carryTested carry c s
    ({ done with status := if done.status = 0 then 1 else 0 }, flow)
  | .pipe left right => carryPipe carry left right s
  | .both left right =>
    match carryTested carry left s with
    | (done, .go) => if done.status = 0 then carry (.command right) done else (done, .go)
    | r => r
  | .either left right =>
    match carryTested carry left s with
    | (done, .go) => if done.status = 0 then (done, .go) else carry (.command right) done
    | r => r
  | .seq left right =>
    match carry (.command left) s with
    | (done, .go) => carry (.command right) done
    | r => r
  | .background c =>
    let (done, _) := carry (.command c) { s with deadline := none }
    ({ s.rejoin done with clock := s.clock, status := 0 }, .go)
  | .subshell c =>
    let (done, flow) := carry (.command c) s
    strictly (s.rejoin done, outsideFlow flow)
  | .conditional condition thenPart elsePart =>
    match carryTested carry condition s with
    | (done, .go) =>
      if done.status = 0 then carry (.command thenPart) done
      else carry (.command elsePart) (done.ended 0)
    | r => r
  | .loop untilTrue condition body => carry (.rounds untilTrue condition body 0) s
  | .each name none body => carry (.roundsOver name body s.arguments) (s.ended 0)
  | .each name (some words) body =>
    match expandFields (outputOf carry) words s with
    | (.error e, s) => ((s.complain 1 e).ended 2, .exit)
    | (.ok values, s) => carry (.roundsOver name body values) (s.ended 0)
  | .cases subject patterns body rest =>
    match expandText (outputOf carry) subject s with
    | (.error e, s) => ((s.complain 1 e).ended 2, .exit)
    | (.ok text, s) =>
      carry (.command (if anyAccepts carry patterns text.toList s then body else rest)) (s.ended 0)
  | .define name body =>
    ({ s with functions := (name, body) :: s.functions.filter fun f => f.1 ≠ name }.ended 0, .go)

/-! ## Loops -/

/-- The flow after a round of a loop, and whether there is another round. -/
def afterRound : Flow → Bool × Flow
  | .go => (true, .go)
  | .nextRound 1 => (true, .go)
  | .nextRound n => (false, .nextRound (n - 1))
  | .leaveLoop 1 => (false, .go)
  | .leaveLoop n => (false, .leaveLoop (n - 1))
  | f => (false, f)

/-- Carries out a round of a loop and those after it. -/
def carryRounds (carry : Task → Carrying) (untilTrue : Bool) (condition body : Command)
    (last : Nat) : Carrying :=
  fun s =>
    match carryTested carry condition s with
    | (done, .go) =>
      if (done.status = 0) = untilTrue then (done.ended last, .go)
      else
        let (round, flow) := carry (.command body) done
        match afterRound flow with
        | (true, _) => carry (.rounds untilTrue condition body round.status) round
        | (false, flow) => (round, flow)
    | (done, f) => (done, (afterRound f).2)

/-- Carries out a round for each value. -/
def carryRoundsOver (carry : Task → Carrying) (name : String) (body : Command)
    (values : List String) : Carrying :=
  fun s =>
    match values with
    | [] => (s, .go)
    | v :: vs =>
      let (round, flow) := carry (.command body) (s.assign name v)
      match afterRound flow with
      | (true, _) => carry (.roundsOver name body vs) round
      | (false, flow) => (round, flow)

/-! ## Programs and shells -/

/-- Carries out a script that a file holds. -/
def carryFile (carry : Task → Carrying) (path : Path) (args : List String) (content : Octets) :
    Carrying :=
  carryInner carry path.wide args (Text.wide content)

/-- Carries out what the first line of a file asks for. -/
def carryScript (carry : Task → Carrying) (line : Nat) (name : String) (path : Path)
    (args : List String) (content : Octets) : Carrying := fun s =>
  match interpreter? content with
  | none => carryFile carry path args content s
  | some (program, option) =>
    match programName? s.host (.ofWide program) with
    | some "env" =>
      if option.any (· ∈ shellNames) then carryFile carry path args content s
      else carry (.environment line (option.toList ++ path.wide :: args)) s
    | some n =>
      if n ∈ shellNames then
        let strict := option.any fun o => 'e' ∈ o.toList
        let start := if strict then Text.narrow "set -e;".toList else []
        carryFile carry path args (start ++ content) s
      else carry (.program line program (option.toList ++ path.wide :: args)) s
    | none => ((s.complain line (name ++ ": not found")).ended 127, .go)

/-- Carries out a program in a process of its own. -/
def carryProgram (carry : Task → Carrying) (line : Nat) (name : String) (args : List String) :
    Carrying := fun s =>
  match findCommand s name with
  | .error .notFound => ((s.complain line (name ++ ": not found")).ended 127, .go)
  | .error .permission => ((s.complain line (name ++ ": Permission denied")).ended 126, .go)
  | .ok path =>
    match programName? s.host path with
    | some "env" => carry (.environment line args) s
    | some program =>
      match program? program with
      | some f =>
        let (done, status) := f args s.forPrograms
        let done := (s.rejoin done).ended status
        (done, if done.isLate then .late else .go)
      | none => carry (.shell args) s
    | none =>
      match s.host.readFile path with
      | .error _ => ((s.complain line (name ++ ": not found")).ended 127, .go)
      | .ok content => carryScript carry line name path args content s

/-- Carries out a program with more variables; without one they are written. -/
def carryEnvironment (carry : Task → Carrying) (line : Nat) (args : List String) : Carrying :=
  fun s =>
  match args with
  | [] =>
    let lines := s.environment.map fun (n, v) => n ++ "=" ++ v ++ "\n"
    ((s.writeText 1 (String.join lines)).ended 0, .go)
  | a :: r =>
    match assignmentOf a with
    | (n, some v) =>
      let (done, flow) := carry (.environment line r) ((s.assign n v).exporting n)
      ({ done with bindings := s.bindings, exported := s.exported }, flow)
    | (_, none) =>
      match findCommand s a with
      | .ok _ => carry (.program line a r) s
      | .error _ =>
        ((s.writeText 2 ("env: '" ++ a ++ "': No such file or directory\n")).ended 127, .go)

/-- Carries out a shell with arguments. -/
def carryShell (carry : Task → Carrying) (args : List String) : Carrying := fun s =>
  match args with
  | [] =>
    let (content, s) := s.readAll 0 readLimit
    carryInner carry "sh" [] (Text.wide content) s
  | a :: r =>
    match a.toList with
    | '-' :: letters =>
      if 'c' ∈ letters then
        match r with
        | text :: r =>
          let start := if 'e' ∈ letters then "set -e;".toList else []
          carryInner carry (r.headD "sh") r.tail (start ++ text.toList) s
        | [] => ((s.writeText 2 "sh: 0: -c requires an argument\n").ended 2, .go)
      else carry (.shell r) s
    | _ =>
      match s.host.readFile (.ofWide a) with
      | .ok content => carryInner carry a r (Text.wide content) s
      | .error _ =>
        ((s.writeText 2 ("sh: 0: cannot open " ++ a ++ ": No such file\n")).ended 2, .go)

/-! ## Commands that direct the shell -/

/-- The whole number that the first argument is. -/
def firstNumber? (args : List String) : Option Nat :=
  args.head?.bind String.toNat?

/-- Ends the shell. -/
def exitShell (line : Nat) (args : List String) : Carrying := fun s =>
  match args, firstNumber? args with
  | a :: _, none => ((s.complain line ("exit: Illegal number: " ++ a)).ended 2, .exit)
  | _, n => (s.ended (n.getD s.status), .exit)

/-- Runs a program in place of the shell. -/
def replaceShell (carry : Task → Carrying) (line : Nat) (args : List String) : Carrying := fun s =>
  match args with
  | [] => (s.ended 0, .go)
  | program :: args =>
    match carry (.program line program args) s with
    | (s, .go) => (s, .exit)
    | r => r

/-- Carries out a file in this shell. -/
def carryHere (carry : Task → Carrying) (line : Nat) (args : List String) : Carrying := fun s =>
  match args with
  | [] => (s.ended 0, .go)
  | a :: _ =>
    match s.host.readFile (.ofWide a) with
    | .ok content => carryText carry (Text.wide content) s
    | .error _ => ((s.complain line (".: cannot open " ++ a ++ ": No such file")).ended 2, .exit)

/-- Carries out a command that is no function, or says what a name stands for. -/
def carryPlainly (carry : Task → Carrying) (line : Nat) (args : List String) : Carrying := fun s =>
  match args with
  | [] => (s.ended 0, .go)
  | "-v" :: wanted =>
    let name := wanted.headD ""
    if (builtIn? line name).isSome ∨ (s.functions.lookup name).isSome then
      ((s.writeText 1 (name ++ "\n")).ended 0, .go)
    else
      match findCommand s name with
      | .ok p => ((s.writeText 1 (p.wide ++ "\n")).ended 0, .go)
      | .error _ => (s.ended 127, .go)
  | program :: args =>
    let (done, flow) := carry (.named line program args) { s with functions := [] }
    ({ done with functions := s.functions }, flow)

/-- The commands that direct the shell. -/
def directions (carry : Task → Carrying) (line : Nat) :
    List (String × (List String → Carrying)) := [
  ("exit", exitShell line),
  ("return", fun args s => (s.ended ((firstNumber? args).getD s.status), .leave)),
  ("break", fun args s => (s.ended 0, .leaveLoop (max 1 ((firstNumber? args).getD 1)))),
  ("continue", fun args s => (s.ended 0, .nextRound (max 1 ((firstNumber? args).getD 1)))),
  ("kill", kill line),
  ("eval", fun args => carryText carry (" ".intercalate args).toList),
  ("exec", replaceShell carry line),
  (".", carryHere carry line),
  ("command", carryPlainly carry line)]

/-- Carries out the function, the command of the shell or the program of a name. -/
def carryNamed (carry : Task → Carrying) (line : Nat) (name : String) (args : List String) :
    Carrying := fun s =>
  match s.functions.lookup name, (directions carry line).lookup name, builtIn? line name with
  | some body, _, _ =>
    let (done, flow) := carry (.command body) { s with arguments := args }
    ({ done with arguments := s.arguments }, if flow = .leave then .go else flow)
  | none, some direct, _ => direct args s
  | none, none, some f =>
    let (s, status) := f args s
    (s.ended status, .go)
  | none, none, none => carry (.program line name args) s

/-! ## All tasks -/

/-- Carries out the lines of a script; one that cannot be parsed ends the shell. -/
def carryLines (carry : Task → Carrying) (ts : List Lexeme) : Carrying := fun s =>
  match ts with
  | [] => (s, .go)
  | ts =>
    match parseLine (ts.length + 1) ts with
    | .error fault => ((s.complain fault.line ("Syntax error: " ++ fault.message)).ended 2, .exit)
    | .ok (c, rest) =>
      match carry (.command c) s with
      | (done, .go) => carry (.script rest) done
      | r => r

/-- A step of a task, with the rest of the run. -/
def Task.step (carry : Task → Carrying) : Task → Carrying
  | .command c => carryCommand carry c
  | .rounds untilTrue condition body last => carryRounds carry untilTrue condition body last
  | .roundsOver name body values => carryRoundsOver carry name body values
  | .script ts => carryLines carry ts
  | .named line name args => carryNamed carry line name args
  | .program line name args => carryProgram carry line name args
  | .environment line args => carryEnvironment carry line args
  | .shell args => carryShell carry args

/-- Carries out a task, at most `fuel` of them inside one another. -/
def carryOut : Nat → Task → Carrying
  | 0, _ => fun s => (s, .late)
  | fuel + 1, t => t.step (carryOut fuel)

end CommitGate.Shell

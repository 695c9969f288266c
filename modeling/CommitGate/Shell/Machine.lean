import CommitGate.Collect
import CommitGate.Git.Program
import CommitGate.Shell.Filter
import CommitGate.Shell.Printing

/-!
# The plain machine

The programs that every machine has, and a machine that holds nothing else: its files stand for
programs and devices.
-/

namespace CommitGate.Shell

/-! ## Changing files -/

/-- Carries out a change for each file and reports those that fail. -/
def onNames (report : String → Fault → String) (f : Host → Path → Except Fault Host) :
    List String → State → State × Nat
  | [], s => (s, 0)
  | name :: names, s =>
    let (s, status) := match f s.host (.ofWide name) with
      | .ok h => ({ s with host := h }, 0)
      | .error e => (s.writeText 2 (report name e ++ "\n"), 1)
    let (s, more) := onNames report f names s
    (s, max status more)

/-- Makes empty files. -/
def touch : Program := fun args s =>
  onNames (fun n e => "touch: cannot touch '" ++ n ++ "': " ++ reason e)
    (fun h p => if h.pathExists p then .ok h else h.writeFile p []) (options args).2 s

/-- Makes directories. -/
def mkdir : Program := fun args s =>
  let (letters, names) := options args
  onNames (fun n e => "mkdir: cannot create directory '" ++ n ++ "': " ++ reason e)
    (fun h p =>
      if 'p' ∈ letters then
        match h.makePath p with
        | (.ok (), h) => .ok h
        | (.error e, _) => .error e
      else h.makeDirectory p) names s

/-- Removes files. -/
def rm : Program := fun args s =>
  let (letters, names) := options args
  onNames (fun n e => "rm: cannot remove '" ++ n ++ "': " ++ reason e)
    (fun h p =>
      match if 'r' ∈ letters ∨ 'R' ∈ letters then h.removeAll p else h.removeFile p with
      | .error .notFound => if 'f' ∈ letters then .ok h else .error .notFound
      | r => r) names s

/-- Gives a file another name or a copy. -/
def transfer (program : String) (f : Host → Path → Path → Except Fault Host) : Program :=
  fun args s =>
  match (options args).2 with
  | [a, b] =>
    let name := (Path.ofWide a).fileName?.getD (.ofWide a)
    let goal := if s.host.isDirectory (.ofWide b) then (Path.ofWide b).child name else .ofWide b
    onNames (fun n e => program ++ ": cannot stat '" ++ n ++ "': " ++ reason e)
      (fun h p => f h p goal) [a] s
  | _ => (s.writeText 2 (program ++ ": missing file operand\n"), 1)

/-- Gives a file one more name, or makes a link to it; what stood there goes when that is forced. -/
def ln : Program := fun args s =>
  let (letters, _) := options args
  transfer "ln" (fun h p q =>
    let h := if 'f' ∈ letters then (h.removeFile q).toOption.getD h else h
    if 's' ∈ letters then h.makeLink q p.spelling else h.makeName p q) args s

/-- Sets the permission bits of files. -/
def chmod : Program := fun args s =>
  match args with
  | mode :: names =>
    let change := fun (old : Nat) =>
      if mode.toList.all isOctal then Text.natOfDigits 8 mode.toList
      else if mode.toList.getLast? = some 'x' ∧ '+' ∈ mode.toList then old ||| 0o111
      else if mode.toList.getLast? = some 'x' ∧ '-' ∈ mode.toList then old &&& 0o666
      else old
    onNames (fun n e => "chmod: cannot access '" ++ n ++ "': " ++ reason e)
      (fun h p => do
        match ← h.entry p with
        | .file _ _ old => h.setMode p (change old)
        | _ => .ok h) names s
  | [] => (s.writeText 2 "chmod: missing operand\n", 1)

/-- Writes the names in directories. -/
def ls : Program := fun args s =>
  let (letters, names) := options args
  let many := 1 < names.length
  (if names = [] then ["."] else names).foldl (fun (s, status) name =>
    match s.host.entry (.ofWide name) with
    | .ok (.dir t) =>
      let found := t.names.filter fun n => 'a' ∈ letters ∨ n.wide.toList.head? ≠ some '.'
      let sorted := (Tree.sortNamed (found.map fun n => (n, ()))).map fun n => n.1.wide ++ "\n"
      (s.writeText 1 ((if many then name ++ ":\n" else "") ++ String.join sorted), status)
    | .ok _ => (s.writeText 1 (name ++ "\n"), status)
    | .error e =>
      (s.writeText 2 ("ls: cannot access '" ++ name ++ "': " ++ reason e ++ "\n"), 2)) (s, 0)

/-! ## Other programs -/

/-- The milliseconds of a time with an optional unit. -/
def waitingTime? (arg : String) : Option Nat :=
  let cs := arg.toList
  let digits := cs.takeWhile fun c => c.isDigit || c == '.'
  let factor := match cs.dropWhile fun c => c.isDigit || c == '.' with
    | [] | ['s'] => some 1000
    | ['m'] => some 60000
    | ['h'] => some 3600000
    | ['d'] => some 86400000
    | _ => none
  match Text.splitOn ['.'] digits, factor with
  | [whole], some f => if whole = [] then none else some (Text.natOfDigits 10 whole * f)
  | [whole, part], some f =>
    if whole = [] ∧ part = [] then none
    else
      some (Text.natOfDigits 10 whole * f + Text.natOfDigits 10 part * f / Nat.pow 10 part.length)
  | _, _ => none

/-- Waits. -/
def sleep : Program := fun args s =>
  if args = [] then
    (s.writeText 2 "sleep: missing operand\nTry 'sleep --help' for more information.\n", 1)
  else
    match args.mapM waitingTime? with
    | some times => ({ s with clock := times.foldl (· + ·) s.clock }, 0)
    | none =>
      let wrong := (args.find? fun a => (waitingTime? a).isNone).getD ""
      (s.writeText 2 ("sleep: invalid time interval '" ++ wrong
        ++ "'\nTry 'sleep --help' for more information.\n"), 1)

/-- Writes the variables of the environment. -/
def printenv : Program := fun args s =>
  match args with
  | [] =>
    let lines := s.host.bindings.map fun (n, v) => n ++ "=" ++ v.wide ++ "\n"
    (s.writeText 1 (String.join lines), 0)
  | names =>
    match names.filterMap s.host.value? with
    | [] => (s, 1)
    | found => (s.writeText 1 (String.join (found.map fun v => v.wide ++ "\n")), 0)

/-- Writes the last name of a path. -/
def basename : Program := fun args s =>
  match args with
  | a :: r =>
    let name := (Path.ofWide a).fileName?.elim a RawText.wide
    let cut := r.head?.elim name fun e =>
      if e.toList.isSuffixOf name.toList ∧ e ≠ name then
        String.ofList (name.toList.take (name.length - e.length))
      else name
    (s.writeText 1 (cut ++ "\n"), 0)
  | [] =>
    (s.writeText 2 "basename: missing operand\nTry 'basename --help' for more information.\n", 1)

/-- Writes a path without its last name. -/
def dirname : Program := fun args s =>
  match args with
  | a :: _ =>
    let above := (Path.ofWide a).parent?.elim "/" fun p => if p.wide = "" then "." else p.wide
    (s.writeText 1 (above ++ "\n"), 0)
  | [] =>
    (s.writeText 2 "dirname: missing operand\nTry 'dirname --help' for more information.\n", 1)

/-- Writes the directory. -/
def pwd : Program := fun _ s =>
  (s.writeText 1 (s.host.workingPath.wide ++ "\n"), 0)

/-- Writes its arguments. -/
def echoProgram : Program := fun args s =>
  (s.write 1 (echo args), 0)

/-- Writes its arguments in a format. -/
def printfProgram (complain : State → String → State) : Program := fun args s =>
  match args with
  | [] => (complain s "printf: usage: printf format [arg ...]", 2)
  | format :: rest =>
    let (o, wrong) := printf format rest
    let s := s.write 1 o
    (wrong.foldl (fun s w => complain s ("printf: " ++ w ++ ": expected numeric value")) s,
      if wrong = [] then 0 else 1)

/-- Judges its arguments; under the name `[` the last one is the closing bracket. -/
def testProgram (complain : State → String → State) (bracket : Bool) : Program := fun args s =>
  if bracket ∧ args.getLast? ≠ some "]" then (complain s "[: missing ]", 2)
  else
    match judge s.host (if bracket then args.dropLast else args) with
    | .ok t => (s, if t then 0 else 1)
    | .error e => (complain s ((if bracket then "[: " else "test: ") ++ e), 2)

/-- The complaint of a program that is no part of the shell. -/
def plainly (s : State) (text : String) : State :=
  s.writeText 2 (text ++ "\n")

/-! ## The machine -/

/-- The programs that are no part of the shell. -/
def programs : List (String × Program) := [
  ("true", fun _ s => (s, 0)),
  ("false", fun _ s => (s, 1)),
  ("echo", echoProgram),
  ("printf", printfProgram plainly),
  ("test", testProgram plainly false),
  ("[", testProgram plainly true),
  ("pwd", pwd),
  ("cat", cat),
  ("head", head),
  ("tail", tail),
  ("wc", wc),
  ("seq", seq),
  ("yes", yes),
  ("sort", sort),
  ("uniq", uniq),
  ("tr", tr),
  ("touch", touch),
  ("mkdir", mkdir),
  ("rm", rm),
  ("mv", transfer "mv" Host.rename),
  ("ln", ln),
  ("cp", transfer "cp" fun h p q => do h.writeFile q (← h.readFile p)),
  ("chmod", chmod),
  ("ls", ls),
  ("sleep", sleep),
  ("printenv", printenv),
  ("basename", basename),
  ("dirname", dirname),
  ("git", fun args s => let (code, h) := Git.run s.host args; ({ s with host := h }, code))]

/-- The program of a name. -/
def program? (name : String) : Option Program :=
  programs.lookup name

/-- The directory of the programs. -/
def programsPlace : List RawText := ["usr", "bin"]

/-- The names of shells. -/
def shellNames : List String := ["sh", "bash", "dash", "env"]

/-- The root directory of a plain machine. -/
def plainTree : Tree :=
  let programFiles := (programs.map (·.1) ++ shellNames).zipIdx.foldl (fun t (n, i) =>
    t.insert n (.file (i + 3) [] Entry.scriptMode)) Tree.empty
  .dir "usr" (.dir "bin" programFiles .empty)
    (.link "bin" 0 "usr/bin"
      (.dir "dev" (.file "null" 1 [] 0o666 (.file "zero" 2 [] 0o666 .empty))
        (.dir "tmp" .empty (.dir "etc" .empty .empty))))

end CommitGate.Shell

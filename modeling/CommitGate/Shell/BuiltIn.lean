import CommitGate.Shell.Machine
import CommitGate.Shell.Redirection

/-!
# Commands of the shell itself

These commands change the shell that carries them out: its directory, its variables and its
arguments. They are functions like programs, with the line they stand in for their complaints.
-/

namespace CommitGate.Shell

/-- The place that a directory name means, as the shell calls it: `..` takes the last name away. -/
def logicalPlace (place : String) (name : String) : String :=
  let start : List String :=
    if name.toList.head? = some '/' then []
    else (Path.ofWide place).components.filterMap fun
      | .name n => some n.wide
      | _ => none
  let names := (Path.ofWide name).components.foldl (fun ns c =>
    match c with
    | .name n => ns ++ [n.wide]
    | .parent => ns.dropLast
    | _ => ns) start
  "/" ++ "/".intercalate names

/-- Goes to another directory. -/
def cd (line : Nat) : Program := fun args s =>
  let (name, shown) := match args with
    | [] => ((s.value? "HOME").getD "", false)
    | "-" :: _ => ((s.value? "OLDPWD").getD s.place, true)
    | a :: _ => (a, false)
  let place := logicalPlace s.place name
  match s.host.enter (.ofWide (if name = "" then "." else place)) with
  | .error _ => (s.complain line ("cd: can't cd to " ++ name), 2)
  | .ok h =>
    let s := { (s.assign "OLDPWD" s.place).assign "PWD" place with host := h, place := place }
    (if shown then s.writeText 1 (place ++ "\n") else s, 0)

/-- The name and value of an argument that assigns. -/
def assignmentOf (a : String) : String × Option String :=
  let cs := a.toList
  match cs.dropWhile (· ≠ '=') with
  | _ :: v => (String.ofList (cs.takeWhile (· ≠ '=')), some (String.ofList v))
  | [] => (a, none)

/-- Hands variables to programs. -/
def exportNames : Program := fun args s =>
  (args.foldl (fun s a =>
    let (name, value) := assignmentOf a
    (value.elim s (s.assign name)).exporting name) s, 0)

/-- Assigns variables. -/
def assignAll : Program := fun args s =>
  (args.foldl (fun s a =>
    let (name, value) := assignmentOf a
    value.elim s (s.assign name)) s, 0)

/-- Takes variables or functions away. -/
def unsetNames : Program := fun args s =>
  let names := args.filter fun a => a.toList.head? ≠ some '-'
  if args.head? = some "-f" then
    ({ s with functions := s.functions.filter fun f => f.1 ∉ names }, 0)
  else (names.foldl State.unassign s, 0)

/-- Sets options or the arguments. -/
def setOptions : Program := fun args s =>
  match args with
  | "--" :: r => ({ s with arguments := r }, 0)
  | a :: r =>
    match a.toList with
    | '-' :: letters => ({ s with strict := s.strict || 'e' ∈ letters }, 0)
    | '+' :: letters => ({ s with strict := s.strict && !('e' ∈ letters) }, 0)
    | _ => ({ s with arguments := a :: r }, 0)
  | [] => (s, 0)

/-- Drops arguments. -/
def shift (line : Nat) : Program := fun args s =>
  let n := (args.head?.bind String.toNat?).getD 1
  if n ≤ s.arguments.length then ({ s with arguments := s.arguments.drop n }, 0)
  else (s.complain line "shift: can't shift that many", 2)

/-- The fields of a line for so many variables: the last one takes the rest. -/
def lineFields : Nat → List Char → List (List Char)
  | 0, _ => []
  | 1, s => [Text.stripped s]
  | n + 1, s =>
    let s := s.dropWhile Text.isSpace
    s.takeWhile (fun c => !Text.isSpace c) :: lineFields n (s.dropWhile fun c => !Text.isSpace c)

/-- Reads a line into variables. -/
def readInto (line : Nat) : Program := fun args s =>
  let names := args.filter fun a => a.toList.head? ≠ some '-'
  if names = [] then (s.complain line "read: arg count", 2)
  else
    let (octets, ended, s) := s.readLine 0
    let text := Text.wide octets
    let text := if "-r" ∈ args then text else text.filter (· ≠ '\\')
    let values := lineFields names.length text
    ((names.zip values).foldl (fun s (n, v) => s.assign n (String.ofList v)) s,
      if ended then 0 else 1)

/-- The directory as the shell calls it. -/
def pwdBuiltIn : Program := fun args s =>
  (s.writeText 1 ((if "-P" ∈ args then s.host.workingPath.wide else s.place) ++ "\n"), 0)

/-- Commands that need nothing but the state. -/
def builtIn? (line : Nat) (name : String) : Option Program :=
  let complain := fun (s : State) (text : String) => s.complain line text
  match name with
  | ":" | "true" | "trap" | "umask" | "wait" | "ulimit" | "hash" | "alias" | "times" =>
    some fun _ s => (s, 0)
  | "false" => some fun _ s => (s, 1)
  | "echo" => some echoProgram
  | "printf" => some (printfProgram complain)
  | "test" => some (testProgram complain false)
  | "[" => some (testProgram complain true)
  | "pwd" => some pwdBuiltIn
  | "cd" => some (cd line)
  | "export" => some exportNames
  | "readonly" | "local" => some assignAll
  | "unset" => some unsetNames
  | "set" => some setOptions
  | "shift" => some (shift line)
  | "read" => some (readInto line)
  | _ => none

end CommitGate.Shell

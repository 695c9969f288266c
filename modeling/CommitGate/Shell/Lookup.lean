import CommitGate.Shell.Machine

/-!
# Finding the file of a command

A name with a slash is the path of a program or script; any other is looked for along `PATH`. A
script names the program that carries it out in its first line.
-/

namespace CommitGate.Shell

open Text (Octets)

/-- Why a command cannot be run. -/
inductive Missing where
  | notFound
  | permission
deriving DecidableEq, Repr

/-- The file of a command: a name with a slash is a path, any other is looked for along `PATH`. -/
def findCommand (s : State) (name : String) : Except Missing Path :=
  let judge := fun (p : Path) =>
    match s.host.entry p with
    | .ok e => if e.isExecutable then Except.ok p else .error .permission
    | .error _ => .error .notFound
  if '/' ∈ name.toList then judge (.ofWide name)
  else
    let directories := match s.value? "PATH" with
      | some v => (Text.splitOn [':'] v.toList).map String.ofList
      | none => []
    let candidates := directories.map fun d =>
      (Path.ofWide (if d = "" then "." else d)).child (.ofWide name)
    match candidates.find? s.host.isProgram with
    | some p => .ok p
    | none => if candidates.any s.host.isFile then .error .permission else .error .notFound

/-- The program and argument that the first line of a script names. -/
def interpreter? (content : Octets) : Option (String × Option String) :=
  match content with
  | 35 :: 33 :: r =>
    let line := Text.stripped (Text.wide (r.takeWhile (· ≠ 10)))
    let program := line.takeWhile fun c => !Text.isSpace c
    let rest := Text.stripped (line.drop program.length)
    some (String.ofList program, if rest = [] then none else some (String.ofList rest))
  | _ => none

/-- The name of a program of the machine that a path leads to. -/
def programName? (h : Host) (p : Path) : Option String :=
  match (h.canonical p).toOption with
  | some place => if place.dropLast = programsPlace then place.getLast?.map RawText.wide
    else none
  | none => none

end CommitGate.Shell

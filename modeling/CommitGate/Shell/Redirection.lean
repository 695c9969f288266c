import CommitGate.Shell.Expansion
import CommitGate.Shell.Program

/-!
# Redirections

A redirection connects a descriptor with a file, or with what another descriptor stands for.
-/

namespace CommitGate.Shell

open Text (Octets)

/-- A device that a path leads to. -/
def device? (h : Host) (p : Path) : Option Channel :=
  match (h.canonical p).toOption with
  | some place =>
    if place = devicePlace "null" then some .nothing
    else if place = devicePlace "zero" then some .zeros
    else none
  | none => none

/-- Why a file cannot be made, in the words of the shell. -/
def creationReason : Fault → String
  | .notFound => "Directory nonexistent"
  | f => reason f

/-- Opens a file for reading. -/
def openForReading (s : State) (p : Path) : Except String (State × Channel) :=
  match device? s.host p with
  | some c => .ok (s, c)
  | none =>
    match s.host.entry p with
    | .ok (.file _ content _) =>
      let (s, i) := s.newSource content
      .ok (s, .source i)
    | .ok _ => .ok (s, .nothing)
    | .error .notFound => .error ("cannot open " ++ p.wide ++ ": No such file")
    | .error e => .error ("cannot open " ++ p.wide ++ ": " ++ reason e)

/-- Opens a file for writing at its end; it is emptied first unless it is kept. -/
def openForWriting (keep : Bool) (s : State) (p : Path) : Except String (State × Channel) :=
  match device? s.host p with
  | some c => .ok (s, c)
  | none =>
    let made := if keep ∧ s.host.isFile p then .ok s.host else s.host.writeFile p []
    match made with
    | .error e => .error ("cannot create " ++ p.wide ++ ": " ++ creationReason e)
    | .ok h =>
      match h.entry p with
      | .ok (.file node _ _) => .ok ({ s with host := h }, .file node)
      | _ => .ok ({ s with host := h }, .nothing)

/-- Opens the target of a redirection; a closed descriptor has no channel. -/
def openTarget (s : State) (kind : RedirectKind) (target : String) :
    Except String (State × Option Channel) :=
  match kind with
  | .read => (openForReading s (.ofWide target)).map fun (s, c) => (s, some c)
  | .write => (openForWriting false s (.ofWide target)).map fun (s, c) => (s, some c)
  | .append => (openForWriting true s (.ofWide target)).map fun (s, c) => (s, some c)
  | .readWrite => (openForWriting true s (.ofWide target)).map fun (s, c) => (s, some c)
  | .here => .ok (s, some .nothing)
  | .duplicate =>
    if target = "-" then .ok (s, none)
    else
      match target.toNat?.bind s.channel? with
      | some c => .ok (s, some c)
      | none => .error (target ++ ": Bad file descriptor")

/-- Carries out redirections from left to right; the text says why one of them fails. -/
def redirect (output : List Char → State → Octets × State) :
    List Redirect → State → Option String × State
  | [], s => (none, s)
  | r :: rs, s =>
    match expandText output r.target s with
    | (.error e, s) => (some e, s)
    | (.ok target, s) =>
      match openTarget s r.kind target with
      | .error e => (some e, s)
      | .ok (s, some c) => redirect output rs (s.connect r.descriptor c)
      | .ok (s, none) => redirect output rs (s.disconnect r.descriptor)

end CommitGate.Shell

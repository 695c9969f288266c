import CommitGate.Fault
import CommitGate.Path
import CommitGate.Tree

/-!
# The host

A host is what one process sees: the tree of all files, the working directory and the variables of
the environment. Paths are resolved name by name. A link on the way is followed; one at the end is
followed or not, as the operation asks. At most forty links are followed.

Operations that change files return the host afterwards. One that fails returns the fault alone, as
the files are then as they were; only the making of several directories may fail halfway. A file
that has several names is changed under all of them.
-/

namespace CommitGate

open Text (Octets)

/-- The files, the working directory and the environment of a process. -/
structure Host where
  /-- The root directory. -/
  tree : Tree
  /-- The place of the working directory. -/
  directory : List RawText
  /-- The variables of the environment with their values. -/
  bindings : List (String × RawText)
deriving DecidableEq, Repr

namespace Host

/-! ## Resolving a path -/

/-- One step of a path. -/
inductive Step where
  | name (s : RawText)
  | stay
  | up
  /-- A slash at the end: what stands before it has to be a directory. -/
  | slash
deriving DecidableEq, Repr

/-- The step that a piece between slashes asks for. -/
def step? (s : Octets) : Option Step :=
  if s = [] then none
  else if s = [Path.point] then some .stay
  else if s = [Path.point, Path.point] then some .up
  else some (.name ⟨s⟩)

/-- The steps of a spelling, the slash at the start apart. -/
def steps (s : Octets) : List Step :=
  (Path.slashPieces s).filterMap step? ++ if s.getLast? = some Path.slash then [.slash] else []

/-- Where a spelling starts: at `place`, or at the root when it is absolute. -/
def origin (place : List RawText) (s : Octets) : List RawText :=
  if s.head? = some Path.slash then [] else place

/-- Takes the steps from a place. `follow` goes on from a link: it gets the place that holds the
link, the link's target and the steps that remain. The name at the end need not stand for
anything. -/
def advance (t : Tree) (last : Bool)
    (follow : List RawText → Octets → List Step → Except Fault (List RawText)) :
    List RawText → List Step → Except Fault (List RawText)
  | place, [] => .ok place
  | place, .stay :: r => advance t last follow place r
  | place, .slash :: r => advance t last follow place r
  | place, .up :: r => advance t last follow place.dropLast r
  | place, .name n :: r =>
    match t.get? (place ++ [n]) with
    | some (.dir _) => advance t last follow (place ++ [n]) r
    | some (.file _ _ _) => if r = [] then .ok (place ++ [n]) else .error .notDirectory
    | some (.link _ target) =>
      if r = [] ∧ last = false then .ok (place ++ [n]) else follow place target.octets r
    | none => if r = [] ∨ r = [.slash] then .ok (place ++ [n]) else .error .notFound

/-- Takes the steps from a place, following at most so many links. -/
def resolveFrom (t : Tree) (last : Bool) :
    Nat → List RawText → List Step → Except Fault (List RawText)
  | 0, place, ss => advance t last (fun _ _ _ => .error .tooManyLinks) place ss
  | links + 1, place, ss =>
    advance t last (fun here target r =>
      if target = [] then .error .notFound
      else resolveFrom t last links (origin here target) (steps target ++ r)) place ss

/-- The place that a path leads to; its last name need not stand for anything. A link at the end is
followed when `last` is set. -/
def locate (h : Host) (last : Bool) (p : Path) : Except Fault (List RawText) :=
  let s := p.spelling.octets
  if s = [] then .error .notFound
  else if s.contains 0 then .error .nulInPath
  else resolveFrom h.tree last 40 (origin h.directory s) (steps s)

/-- What a path leads to. -/
def entry (h : Host) (p : Path) : Except Fault Entry := do
  (h.tree.get? (← h.locate true p)).elim (.error .notFound) .ok

/-- What a path leads to, a link at the end not being followed. -/
def ownEntry (h : Host) (p : Path) : Except Fault Entry := do
  (h.tree.get? (← h.locate false p)).elim (.error .notFound) .ok

/-- The place of what a path leads to, free of links. -/
def canonical (h : Host) (p : Path) : Except Fault (List RawText) := do
  let place ← h.locate true p
  if (h.tree.get? place).isSome then .ok place else .error .notFound

/-- A place as an absolute path. -/
def absolute (place : List RawText) : Path :=
  ⟨⟨Path.slash :: [Path.slash].intercalate (place.map RawText.octets)⟩⟩

/-- The working directory as a path. -/
def workingPath (h : Host) : Path :=
  absolute h.directory

/-- The host with another working directory. -/
def enter (h : Host) (p : Path) : Except Fault Host := do
  let place ← h.canonical p
  match h.tree.get? place with
  | some (.dir _) => .ok { h with directory := place }
  | _ => .error .notDirectory

/-- The host as a process sees it that is started in a directory. -/
def startIn (h : Host) (p : Path) : Except Fault Host :=
  match h.enter p with
  | .error .nulInPath => .error .nulInCommand
  | r => r

/-! ## Looking -/

/-- The path leads to something. -/
def pathExists (h : Host) (p : Path) : Bool :=
  (h.entry p).toOption.isSome

/-- The path leads to a regular file. -/
def isFile (h : Host) (p : Path) : Bool :=
  match h.entry p with
  | .ok (.file _ _ _) => true
  | _ => false

/-- The path leads to a directory. -/
def isDirectory (h : Host) (p : Path) : Bool :=
  match h.entry p with
  | .ok (.dir _) => true
  | _ => false

/-- The contents of the directory that the path leads to. -/
def listing (h : Host) (p : Path) : Except Fault Tree := do
  match ← h.entry p with
  | .dir t => .ok t
  | _ => .error .notDirectory

/-- The octets of the file that the path leads to. -/
def readFile (h : Host) (p : Path) : Except Fault Octets := do
  match ← h.entry p with
  | .file _ content _ => .ok content
  | _ => .error .isDirectory

/-- The text of the file that the path leads to, which has to be UTF-8. -/
def readText (h : Host) (p : Path) : Except Fault String := do
  (Text.decode? (← h.readFile p)).elim (.error .notUtf8) fun s => .ok (String.ofList s)

/-! ## Changing -/

/-- The host with `e` at a place. -/
def putEntry (h : Host) (place : List RawText) (e : Entry) : Host :=
  { h with tree := h.tree.put place e }

/-- The host with another content and other permission bits for one file. -/
def revise (h : Host) (node : Nat) (content : Octets → Octets) (mode : Nat → Nat) : Host :=
  { h with tree := h.tree.revise node content mode }

/-- Writes the file that the path leads to. A file that exists keeps its permission bits, a new one
gets the plain ones; a link to nothing makes its target. No file is made where the path asks for a
directory, by a slash at its end or at the end of a link. -/
def writeFile (h : Host) (p : Path) (content : Octets) : Except Fault Host := do
  let place ← h.locate true p
  match h.tree.get? place with
  | some (.file node _ _) => .ok (h.revise node (fun _ => content) id)
  | some _ => .error .isDirectory
  | none =>
    let made := h.putEntry place (.file h.tree.freshNode content Entry.plainMode)
    if (made.locate true p).toOption = some place then .ok made else .error .isDirectory

/-- Sets the permission bits of the file that the path leads to; those of a directory are not
kept. -/
def setMode (h : Host) (p : Path) (mode : Nat) : Except Fault Host := do
  let place ← h.canonical p
  match h.tree.get? place with
  | some (.file node _ _) => .ok (h.revise node id fun _ => mode)
  | _ => .ok h

/-- Makes a directory in one that exists. -/
def makeDirectory (h : Host) (p : Path) : Except Fault Host := do
  let place ← h.locate false p
  match h.tree.get? place with
  | some _ => .error .exists
  | none => .ok (h.putEntry place (.dir .empty))

/-- Makes the directories of a list of paths, outermost last, that do not exist. Those that were
made stay when a later one cannot be. -/
def makeDirectories (h : Host) : List Path → Except Fault Unit × Host
  | [] => (.ok (), h)
  | p :: above =>
    if p.spelling.octets = [] then (.ok (), h)
    else
      match h.makeDirectory p with
      | .ok made => (.ok (), made)
      | .error .notFound =>
        match h.makeDirectories above with
        | (.error e, h') => (.error e, h')
        | (.ok (), h') =>
          match h'.makeDirectory p with
          | .ok made => (.ok (), made)
          | .error e => (if h'.isDirectory p then .ok () else .error e, h')
      | .error e => (if h.isDirectory p then .ok () else .error e, h)

/-- Makes the directory that a path names, and those above it that do not exist. -/
def makePath (h : Host) (p : Path) : Except Fault Unit × Host :=
  h.makeDirectories p.ancestors

/-- Makes a symbolic link. -/
def makeLink (h : Host) (p : Path) (target : RawText) : Except Fault Host := do
  let place ← h.locate false p
  match h.tree.get? place with
  | some _ => .error .exists
  | none => .ok (h.putEntry place (.link h.tree.freshNode target))

/-- Gives a file or link one more name. -/
def makeName (h : Host) (p q : Path) : Except Fault Host := do
  let old ← h.locate false p
  let new ← h.locate false q
  match h.tree.get? old, h.tree.get? new with
  | none, _ => .error .notFound
  | some (.dir _), _ => .error .permission
  | some _, some _ => .error .exists
  | some e, none => .ok (h.putEntry new e)

/-- Gives a file or link another name, in place of what stood there unless that is a directory. Two
names of one file both stay. -/
def rename (h : Host) (p q : Path) : Except Fault Host := do
  let old ← h.locate false p
  let new ← h.locate false q
  match h.tree.get? old, h.tree.get? new with
  | none, _ => .error .notFound
  | some (.dir d), some (.dir u) =>
    if old = new then .ok h
    else if u = .empty then .ok { h with tree := (h.tree.erase old).put new (.dir d) }
    else .error .notEmpty
  | some (.dir _), some _ => .error .notDirectory
  | some _, some (.dir _) => .error .isDirectory
  | some e, some e' =>
    if e.node? = e'.node? then .ok h
    else .ok { h with tree := (h.tree.erase old).put new e }
  | some e, none => .ok { h with tree := (h.tree.erase old).put new e }

/-- Removes a file or a link. -/
def removeFile (h : Host) (p : Path) : Except Fault Host := do
  let place ← h.locate false p
  match h.tree.get? place with
  | none => .error .notFound
  | some (.dir _) => .error .isDirectory
  | some _ => .ok { h with tree := h.tree.erase place }

/-- Removes whatever stands at a path, with all below it. -/
def removeAll (h : Host) (p : Path) : Except Fault Host := do
  let place ← h.locate false p
  match h.tree.get? place with
  | none => .error .notFound
  | some _ => .ok { h with tree := h.tree.erase place }

/-! ## The environment -/

/-- The value of a variable. -/
def value? (h : Host) (name : String) : Option RawText :=
  h.bindings.lookup name

/-- The octet between two directories of a search path. -/
def colon : UInt8 := 0x3A

/-- The directories that programs are looked for in. -/
def searchPath (h : Host) : List Path :=
  match h.value? "PATH" with
  | none => []
  | some s => (Text.splitOn [colon] s.octets).map fun d => ⟨⟨d⟩⟩

/-- The path leads to a file that may be executed. -/
def isProgram (h : Host) (p : Path) : Bool :=
  match h.entry p with
  | .ok e => e.isExecutable
  | .error _ => false

/-- The program that a name stands for: a name of several components is a path from the working
directory, any other is looked for along the search path (`Executor::command_exists`). -/
def findProgram? (h : Host) (name : String) : Option Path :=
  let p : Path := ⟨name⟩
  if 1 < p.components.length then if h.isProgram p then some p else none
  else (h.searchPath.map (·.join p)).find? h.isProgram

end Host

end CommitGate

import CommitGate.Failure
import CommitGate.FileSet
import CommitGate.Host

/-!
# Collecting the files of a project

The walk goes depth first through the directory that the root leads to, visiting the entries of each
directory in the order of their names. Hidden and excluded entries are passed over with all below
them, and no link is followed, the root apart. A regular file with an allowed extension is collected
with its content as text.
-/

namespace CommitGate

open Text (Octets)

/-- Which files of a project are collected. -/
structure Selection where
  /-- Allowed extensions; an empty list allows all. -/
  extensions : List String
  /-- Names that are passed over at any depth. -/
  exclude : List String
deriving DecidableEq, Repr

namespace Selection

/-- The walk visits an entry of that name (`keep_entry`). -/
def keeps (s : Selection) (name : RawText) : Bool :=
  name.shown.toList.head? ≠ some '.' ∧ name.shown ∉ s.exclude

/-- The part of a name after its last point; the whole name when it has none. -/
def extension (name : String) : String :=
  String.ofList ((name.toList.reverse.takeWhile (· ≠ '.')).reverse)

/-- The extension of the file at `p` is allowed (`has_allowed_extension`). -/
def allows (s : Selection) (p : Path) : Bool :=
  match s.extensions, p.fileName? with
  | [], _ => true
  | _ :: _, none => false
  | es, some name => extension name.shown ∈ es

end Selection

/-- A file that the walk meets. -/
structure Visit where
  path : Path
  content : Octets
deriving DecidableEq, Repr

namespace Tree

/-- Puts a named thing among others by name, before those of the same name. -/
def insertNamed {α : Type} (x : RawText × α) : List (RawText × α) → List (RawText × α)
  | [] => [x]
  | y :: ys => if y.1 < x.1 then y :: insertNamed x ys else x :: y :: ys

/-- The things in the order of their names. -/
def sortNamed {α : Type} (xs : List (RawText × α)) : List (RawText × α) :=
  xs.foldr insertNamed []

/-- What the walk meets below each entry of a directory at `p`, entry by entry. -/
def visitsByEntry (s : Selection) : Tree → Path → List (RawText × List Visit)
  | .empty, _ => []
  | .file n _ c _ r, p =>
    if s.keeps n then (n, [⟨p.child n, c⟩]) :: visitsByEntry s r p else visitsByEntry s r p
  | .link _ _ _ r, p => visitsByEntry s r p
  | .dir n d r, p =>
    if s.keeps n then
      (n, (sortNamed (visitsByEntry s d (p.child n))).flatMap (·.2)) :: visitsByEntry s r p
    else visitsByEntry s r p

/-- What the walk meets below a directory at `p`. -/
def visits (s : Selection) (t : Tree) (p : Path) : List Visit :=
  (sortNamed (t.visitsByEntry s p)).flatMap (·.2)

end Tree

namespace Host

/-- What the walk from a root meets. The root is visited whatever its name; when it is a link, the
directory it leads to is walked, but a file it leads to is not met. -/
def visits (h : Host) (s : Selection) (root : Path) : Except Failure (List Visit) :=
  match h.ownEntry root with
  | .error e => .error (.walk root [e.text])
  | .ok (.file _ content _) => .ok [⟨root, content⟩]
  | .ok (.dir t) => .ok (t.visits s root)
  | .ok (.link _ _) =>
    match h.entry root with
    | .error e => .error (.walk root [e.text])
    | .ok (.dir t) => .ok (t.visits s root)
    | .ok _ => .ok []

/-- The files of the project at `root` (`collect`). -/
def collect (h : Host) (s : Selection) (root : Path) : Except Failure FileSet := do
  let met ← h.visits s root
  .ok <| FileSet.ofList <| (met.filter fun v => s.allows v.path).map fun v =>
    (v.path, String.ofList (Text.decodeLossy v.content))

end Host

end CommitGate

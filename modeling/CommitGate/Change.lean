import CommitGate.Tree

/-!
# Changes between trees

Two trees differ in the files that were written and in those that were removed; a list of changes
says how to get from one to the other.

Results:

* `not_mem_changes_of_get?`: a file that stayed as it was is not written.
-/

namespace CommitGate

open Text (Octets)

/-- A file with its place. -/
structure PlacedFile where
  place : List RawText
  node : Nat
  content : Octets
  mode : Nat
deriving DecidableEq, Repr

/-- What was done to a file. -/
inductive Change where
  | write (f : PlacedFile)
  | remove (place : List RawText)
deriving DecidableEq, Repr

namespace Tree

/-- The files below a place. -/
def filesBelow (place : List RawText) : Tree → List PlacedFile
  | .empty => []
  | .file n node content mode r => ⟨place ++ [n], node, content, mode⟩ :: filesBelow place r
  | .link _ _ _ r => filesBelow place r
  | .dir n d r => filesBelow (place ++ [n]) d ++ filesBelow place r

/-- All files of a tree. -/
def files (t : Tree) : List PlacedFile :=
  t.filesBelow []

/-- The changes that lead from one tree to another. -/
def changes (old new : Tree) : List Change :=
  ((old.files.filter fun f => (new.get? f.place).isNone).map fun f => .remove f.place)
    ++ (new.files.filter fun f =>
      old.get? f.place ≠ some (.file f.node f.content f.mode)).map .write

theorem not_mem_changes_of_get? {old new : Tree} {f : PlacedFile}
    (h : old.get? f.place = some (.file f.node f.content f.mode)) : .write f ∉ old.changes new := by
  simp [changes, h]

end Tree

end CommitGate

import CommitGate.Toml.Statement

/-!
# TOML documents

The statements of a text are carried out one after the other on a table that is empty at first. A
header opens the table that the keys after it belong to. A text is a document when every statement
can be carried out.

Results:

* `Document.run_append`: carrying out two lists of statements is carrying out one after the other.
-/

namespace CommitGate.Toml

/-- What has been put together so far. -/
structure Document where
  /-- The table of the whole document. -/
  root : Entries
  /-- The path of the table that keys belong to. -/
  current : List String
deriving Repr

namespace Document

/-- A document without statements. -/
def empty : Document := ⟨[], []⟩

/-- Carries out one statement. -/
def carryOut (d : Document) : Statement → Option Document
  | .pair path v => do
    some { d with root := ← Entries.atHeader (Entries.assign path v) d.current d.root }
  | .table path => do
    some ⟨← Entries.atHeader (Entries.openTable (path.getLastD "")) path.dropLast d.root, path⟩
  | .item path => do
    some ⟨← Entries.atHeader (Entries.openItem (path.getLastD "")) path.dropLast d.root, path⟩

/-- Carries out statements in their order. -/
def run (d : Document) (sts : List Statement) : Option Document :=
  sts.foldlM carryOut d

theorem run_append (d : Document) (sts sts' : List Statement) :
    d.run (sts ++ sts') = (d.run sts).bind (·.run sts') := by
  simp [run, List.foldlM_append]

end Document

/-- The table that a text describes. -/
def parse? (s : String) : Option Entries := do
  some (← Document.empty.run (← readStatements s.toList)).root

end CommitGate.Toml

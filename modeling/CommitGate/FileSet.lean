import CommitGate.Rule

/-!
# File sets

A file set maps paths to contents. Paths with the same components are one key, kept in the spelling
that came first, and the files stand in the order of their paths.

Results:

* `checkAll_append`: the findings of two lists of rules follow each other.
-/

namespace CommitGate

/-- The files of a project with their contents, in path order (`ProjectFileSet`). -/
structure FileSet where
  entries : List (Path × String)
deriving DecidableEq, Repr, Inhabited

namespace FileSet

/-- No files (`ProjectFileSet::new`). -/
def empty : FileSet := ⟨[]⟩

/-- The entries with a file put at its place; a path that is there keeps its spelling and takes the
new content. -/
def insertEntry (p : Path) (content : String) : List (Path × String) → List (Path × String)
  | [] => [(p, content)]
  | (q, c) :: r =>
    match p.order q with
    | .lt => (p, content) :: (q, c) :: r
    | .eq => (q, content) :: r
    | .gt => (q, c) :: insertEntry p content r

/-- The set with a file put in (`ProjectFileSet::insert`). -/
def insert (s : FileSet) (p : Path) (content : String) : FileSet :=
  ⟨insertEntry p content s.entries⟩

/-- The set of the files of a list, put in one after the other (`FromIterator for ProjectFileSet`).
-/
def ofList (files : List (Path × String)) : FileSet :=
  files.foldl (fun s f => s.insert f.1 f.2) empty

/-- The number of files (`ProjectFileSet::len`). -/
def size (s : FileSet) : Nat :=
  s.entries.length

/-- There are no files (`ProjectFileSet::is_empty`). -/
def isEmpty (s : FileSet) : Bool :=
  s.entries.isEmpty

/-- The paths in order (`ProjectFileSet::paths`). -/
def paths (s : FileSet) : List Path :=
  s.entries.map (·.1)

/-- The content of a file (`ProjectFileSet::get`). -/
def get? (s : FileSet) (p : Path) : Option String :=
  (s.entries.find? fun f => p.order f.1 = .eq).map (·.2)

/-- The set has the file (`ProjectFileSet::contains`). -/
def contains (s : FileSet) (p : Path) : Bool :=
  (s.get? p).isSome

/-- The same files with the same contents, whatever the spelling of the paths. -/
def sameAs (s t : FileSet) : Bool :=
  s.size = t.size ∧ (s.entries.zip t.entries).all fun (f, g) => f.1.order g.1 = .eq ∧ f.2 = g.2

/-! ## Iterating -/

/-- An iteration over a file set: the files that are still to come (`Iter`). -/
structure Iteration where
  rest : List (Path × String)
deriving DecidableEq, Repr

namespace Iteration

/-- The next file, and the iteration after it (`Iter::next`). -/
def next? (i : Iteration) : Option ((Path × String) × Iteration) :=
  match i.rest with
  | [] => none
  | f :: r => some (f, ⟨r⟩)

/-- The least and the greatest number of files that may be still to come (`Iter::size_hint`). -/
def sizeHint (i : Iteration) : Nat × Option Nat :=
  (i.rest.length, some i.rest.length)

end Iteration

/-- The iteration over all files in path order (`ProjectFileSet::iter`). -/
def iterate (s : FileSet) : Iteration :=
  ⟨s.entries⟩

/-! ## Checking rules -/

/-- The findings of one rule, in path order (`check`). -/
def check (s : FileSet) (r : Rule) : List Finding :=
  s.entries.filterMap fun (p, content) => (r.firstMatch? content).map fun pattern => ⟨p, r, pattern⟩

/-- The findings of all rules, grouped by rule in the order given (`check_all`). -/
def checkAll (s : FileSet) (rules : List Rule) : List Finding :=
  rules.flatMap s.check

theorem checkAll_append (s : FileSet) (rs rs' : List Rule) :
    s.checkAll (rs ++ rs') = s.checkAll rs ++ s.checkAll rs' := by
  simp [checkAll]

end FileSet

end CommitGate

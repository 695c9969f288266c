import CommitGate.Fault
import CommitGate.Path
import CommitGate.Text.Blank
import CommitGate.Text.Lines

/-!
# Failures

A failure ends the program: the configuration cannot be used, files cannot be read, a process cannot
be started. Findings, declined prompts and failing tests are outcomes and never failures.

A failure carries what the report needs: the field, path or command concerned, and the chain of its
causes with the outermost first. The wording and the exit status are functions of it.

Results:

* `exitStatus_ne_zero`: no failure exits like a success.
-/

namespace CommitGate

/-- Why the program stops (`Error`). -/
inductive Failure where
  | configNotFound (path : Path)
  | configParse (text : String) (causes : List String)
  | configInvalid (field : String) (text : String)
  /-- A directory or file of the project cannot be read. -/
  | walk (path : Path) (causes : List String)
  | notGitRepo
  /-- A hook that somebody else wrote is in the way. -/
  | hookExists (path : Path)
  | spawn (command : String) (causes : List String)
  | io (text : String) (causes : List String)
  | internal (text : String)
deriving DecidableEq, Repr

namespace Failure

/-- A file operation named `text` met a fault (`Error::io`). -/
def ofFault (text : String) (fault : Fault) : Failure :=
  .io text [fault.text]

/-- One line that says what failed (`Display for Error`). -/
def message : Failure → String
  | .configNotFound path => s!"Configuration file not found: {path.shown}"
  | .configParse text _ => s!"Failed to parse configuration: {text}"
  | .configInvalid field text => s!"Invalid configuration: {field} - {text}"
  | .walk path _ => s!"Failed to read {path.shown}"
  | .notGitRepo => "Not in a Git repository"
  | .hookExists path => s!"Git hook already exists at {path.shown}. Use --force to overwrite."
  | .spawn command _ => s!"Failed to run '{command}'"
  | .io text _ => s!"I/O error: {text}"
  | .internal text => s!"Internal error: {text}"

/-- The chain of causes, outermost first. -/
def causes : Failure → List String
  | .configParse _ cs | .walk _ cs | .spawn _ cs | .io _ cs => cs
  | _ => []

/-- The user can mend it (`Error::is_user_error`). -/
def isUserError : Failure → Bool
  | .configNotFound _ | .configParse _ _ | .configInvalid _ _ | .notGitRepo | .hookExists _ => true
  | _ => false

/-- The exit status: 78 for the configuration, 65 outside a repository, 74 for unreadable files, 1
otherwise (`Error::exit_code`). -/
def exitStatus : Failure → Nat
  | .configNotFound _ | .configParse _ _ | .configInvalid _ _ => 78
  | .notGitRepo => 65
  | .walk _ _ => 74
  | _ => 1

/-- The lines of a cause that are not blank, indented. -/
def causeLines (cause : String) : List String :=
  ((Text.lines cause).filter fun line => !Text.allBlank line).map ("  " ++ ·)

/-- The message, the causes and, where the user can help, a hint (`Error::report`). -/
def report (f : Failure) : String :=
  "\n".intercalate <|
    ("Error: " ++ f.message) :: f.causes.flatMap causeLines
      ++ if f.isUserError then ["  Hint: see `pcg --help`."] else []

theorem exitStatus_ne_zero (f : Failure) : f.exitStatus ≠ 0 := by
  cases f <;> simp [exitStatus]

end Failure

end CommitGate

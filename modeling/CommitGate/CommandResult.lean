import CommitGate.Text.Blank

/-!
# Results of commands

A command leaves behind the lines of its output, those of the standard error last, and an exit code.
-/

namespace CommitGate

/-- What a command has left behind (`TestRunResult`). -/
structure CommandResult where
  output : List String
  exitCode : Int
deriving DecidableEq, Repr

namespace CommandResult

/-- The exit code of a command that was stopped after its time. -/
def timeoutCode : Int := 124

/-- The command was stopped after its time. -/
def timedOut (command : String) : CommandResult :=
  ⟨["Command timed out: " ++ command], timeoutCode⟩

/-- The exit code is zero (`TestRunResult::success`). -/
def success (r : CommandResult) : Bool :=
  r.exitCode = 0

/-- The last line that is not blank (`TestRunResult::summary`). -/
def summary? (r : CommandResult) : Option String :=
  r.output.reverse.find? fun line => !Text.allBlank line

/-- The last `limit` lines; all of them when there are fewer, or when `limit` is zero
(`TestRunResult::tail`). -/
def tail (r : CommandResult) (limit : Nat) : List String :=
  if limit = 0 then r.output else r.output.drop (r.output.length - limit)

end CommandResult

end CommitGate

import CommitGate.Act
import CommitGate.Cli.Stop

/-!
# What a call leaves behind

A call writes to the standard output and to the standard error, and ends with an exit status.
Reports go to the standard output; notices, which start with a sign, and failures go to the standard
error.

Results:

* `status_ofTrace`: an act that fails ends with the exit status of its failure.
-/

namespace CommitGate.Cli

/-- The sign in front of a notice. -/
inductive Sign where
  | done
  | remark
  | warning
deriving DecidableEq, Repr

namespace Sign

/-- The character of a sign. -/
def mark : Sign → String
  | .done => "✓"
  | .remark => "•"
  | .warning => "!"

/-- The escape sequence that opens the colour of a sign. -/
def opening : Sign → String
  | .done => "\x1b[32m"
  | .remark => "\x1b[36m"
  | .warning => "\x1b[33m"

/-- The text of a sign. -/
def render (colors : Bool) (s : Sign) : String :=
  if colors then s.opening ++ s.mark ++ styleReset else s.mark

end Sign

/-- A line after a sign. -/
def notice (colors : Bool) (s : Sign) (text : String) : String :=
  s.render colors ++ " " ++ text ++ "\n"

/-- What a call has written, and its exit status. -/
structure Output where
  standard : String := ""
  errors : String := ""
  status : Nat := 0
deriving DecidableEq, Repr, Inhabited

namespace Output

/-- The output with a failure at its end. -/
def failing (o : Output) (f : Failure) : Output :=
  { o with errors := o.errors ++ f.report ++ "\n", status := f.exitStatus }

/-- The output of a call that fails at once. -/
def ofFailure (f : Failure) : Output :=
  failing {} f

/-- The output of an act, whose result has an exit status. -/
def ofTrace {σ α : Type} (colors : Bool) (status : α → Nat) (t : Trace σ α) : Output :=
  let said : Output := { standard := t.text colors }
  match t.result with
  | .ok a => { said with status := status a }
  | .error f => said.failing f

/-- The output of a call that ends early. -/
def ofStop (s : Stop) : Output where
  standard := s.output
  errors :=
    if s.exitStatus = 0 then "" else s.message ++ "\n\nFor more information, try '--help'.\n"
  status := s.exitStatus

theorem status_ofTrace {σ α : Type} {colors : Bool} {status : α → Nat} {t : Trace σ α} {f : Failure}
    (h : t.result = .error f) : (ofTrace colors status t).status = f.exitStatus := by
  simp [ofTrace, h, failing]

end Output

end CommitGate.Cli

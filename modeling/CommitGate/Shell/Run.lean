import CommitGate.CommandResult
import CommitGate.Failure
import CommitGate.Shell.Evaluation

/-!
# Running a command on a host

A command is a text for a shell of its own, which starts in a directory, reads nothing, and is
stopped when its time is up. What it wrote comes back as lines, those of the standard error last.
-/

namespace CommitGate

namespace Shell

/-- How many tasks of a run may stand inside one another. -/
def fuel : Nat := 200000

/-- The number of the first process. -/
def firstPid : Nat := 1000

/-- A shell on a host, with nothing on its standard input and two sinks for what it writes. -/
def State.start (h : Host) (limit : Option Nat) : State where
  host := h
  sinks := [[], []]
  sources := []
  descriptors := [(0, .nothing), (1, .sink 0), (2, .sink 1)]
  bindings := ("PWD", h.workingPath.wide) ::
    (h.bindings.filter fun v => v.1 ≠ "PWD").map fun (n, v) => (n, v.wide)
  exported := h.bindings.map (·.1)
  functions := []
  name := "sh"
  arguments := []
  status := 0
  pid := firstPid
  nextPid := firstPid + 1
  place := h.workingPath.wide
  clock := 0
  deadline := limit
  strict := false
  tested := false

/-- The exit code that a shell has after its run; a shell that a signal has ended has no code of its
own. -/
def exitCode (s : State) : Flow → Nat
  | .killed _ _ => 1
  | _ => s.status

/-- What has come of a run. -/
def resultOf (command : String) : State × Flow → CommandResult
  | (_, .late) => .timedOut command
  | (s, flow) =>
    if s.isLate then .timedOut command
    else ⟨Text.readLines [s.sinkContent 0] ++ Text.readLines [s.sinkContent 1], exitCode s flow⟩

end Shell

namespace Host

/-- Runs a command in a directory, for at most so many milliseconds (`Executor::execute`). -/
def runCommand (limit : Option Nat) (command : String) (directory : Path) (h : Host) :
    Except Failure CommandResult × Host :=
  if '\x00' ∈ command.toList then (.error (.spawn command [Fault.nulInCommand.text]), h)
  else
    match h.startIn directory with
    | .error e => (.error (.spawn command [e.text]), h)
    | .ok inside =>
      let start := Shell.State.start inside limit
      let script := Shell.lex (Text.wide (Text.encode command.toList))
      let ended := Shell.carryOut Shell.fuel (.script script) start
      (.ok (Shell.resultOf command ended), { h with tree := ended.1.host.tree })

end Host

end CommitGate

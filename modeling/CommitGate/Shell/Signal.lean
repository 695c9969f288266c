import CommitGate.Shell.State

/-!
# Signals

The command `kill` sends a signal by number or name. The shell only knows its own processes; most
signals end the process that gets them.
-/

namespace CommitGate.Shell

/-- The default action of a signal is to end the process. -/
def endsProcess (signal : Nat) : Bool :=
  signal ∉ [0, 17, 18, 23, 28]

/-- The signals that have a name. -/
def signalNumbers : List (String × Nat) := [
  ("HUP", 1),
  ("INT", 2),
  ("QUIT", 3),
  ("ABRT", 6),
  ("KILL", 9),
  ("USR1", 10),
  ("SEGV", 11),
  ("USR2", 12),
  ("PIPE", 13),
  ("ALRM", 14),
  ("TERM", 15),
  ("CHLD", 17),
  ("CONT", 18),
  ("URG", 23),
  ("WINCH", 28)]

/-- The signal that a name, with or without `SIG` in front, or a number means. -/
def signalNumber? (s : String) : Option Nat :=
  let name := if "SIG".toList.isPrefixOf s.toList then String.ofList (s.toList.drop 3) else s
  signalNumbers.lookup name <|> name.toNat?

/-- The signal and the processes that the arguments of `kill` name. -/
def killArguments : List String → Option (Nat × List String)
  | "-s" :: s :: r => (signalNumber? s).map (·, r)
  | "--" :: r => some (15, r)
  | a :: r =>
    match a.toList with
    | '-' :: s => (signalNumber? (String.ofList s)).map (·, r)
    | _ => some (15, a :: r)
  | [] => none

/-- Sends a signal. -/
def kill (line : Nat) (args : List String) (s : State) : State × Flow :=
  match killArguments args with
  | none =>
    ((s.complain line "kill: Usage: kill [-s sigspec | -signum | -sigspec] [pid | job]...").ended 2,
      .go)
  | some (signal, pids) =>
    match pids.filterMap String.toNat? with
    | [] => ((s.complain line "kill: Illegal number").ended 2, .go)
    | pid :: _ =>
      if s.pid < pid ∨ pid < 2 then ((s.complain line "kill: No such process").ended 1, .go)
      else if endsProcess signal then (s, .killed pid signal)
      else (s.ended 0, .go)

end CommitGate.Shell

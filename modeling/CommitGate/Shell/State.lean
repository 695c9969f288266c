import CommitGate.Host
import CommitGate.Shell.Command

/-!
# The state of a shell

A shell works on a host, writes to sinks and reads from sources through numbered descriptors, and
keeps variables, functions and the status of the last command. Time passes only in commands that
wait. A shell knows no characters: each character of its texts is one octet.
-/

namespace CommitGate.Shell

open Text (Octets)

/-- What a descriptor stands for. -/
inductive Channel where
  /-- Octets written here are kept. -/
  | sink (i : Nat)
  /-- Octets are read from here until there are none. -/
  | source (i : Nat)
  /-- Octets written here are added to the file of that number. -/
  | file (node : Nat)
  /-- Reading finds nothing, and what is written is dropped. -/
  | nothing
  /-- Reading finds zeros without end. -/
  | zeros
deriving DecidableEq, Repr

/-- How the shell goes on after a command. -/
inductive Flow where
  | go
  /-- The shell ends. -/
  | exit
  | leaveLoop (levels : Nat)
  | nextRound (levels : Nat)
  /-- The function ends. -/
  | leave
  /-- A signal ends the process with that number. -/
  | killed (pid : Nat) (signal : Nat)
  /-- The time is up. -/
  | late
deriving DecidableEq, Repr

/-- A shell with all it works on. -/
structure State where
  host : Host
  /-- What was written to each sink, newest octet first. -/
  sinks : List Octets
  /-- What is left in each source. -/
  sources : List Octets
  descriptors : List (Nat × Channel)
  bindings : List (String × String)
  /-- The variables that programs get. -/
  exported : List String
  functions : List (String × Command)
  /-- The name that the shell was started under. -/
  name : String
  arguments : List String
  /-- The status of the last command. -/
  status : Nat
  pid : Nat
  nextPid : Nat
  /-- The directory as the shell calls it. -/
  place : String
  /-- Milliseconds since the start. -/
  clock : Nat
  /-- The moment at which everything is stopped. -/
  deadline : Option Nat
  /-- A command that fails ends the shell. -/
  strict : Bool
  /-- A condition is being tested, where a failure ends nothing. -/
  tested : Bool
deriving Repr

namespace State

/-! ## Variables -/

/-- The value of a variable. -/
def value? (s : State) (name : String) : Option String :=
  s.bindings.lookup name

/-- The state with a value for a variable. -/
def assign (s : State) (name value : String) : State :=
  { s with bindings := (name, value) :: s.bindings.filter fun v => v.1 ≠ name }

/-- The state without a variable. -/
def unassign (s : State) (name : String) : State :=
  { s with
    bindings := s.bindings.filter fun v => v.1 ≠ name
    exported := s.exported.filter (· ≠ name) }

/-- The state in which programs get a variable. -/
def exporting (s : State) (name : String) : State :=
  { s with exported := if name ∈ s.exported then s.exported else name :: s.exported }

/-- The variables that programs get, with their values. -/
def environment (s : State) : List (String × String) :=
  s.bindings.filter fun v => v.1 ∈ s.exported

/-- The host as programs see it: its variables are the exported ones. -/
def hostForPrograms (s : State) : Host :=
  { s.host with bindings := s.environment.map fun (n, v) => (n, .ofWide v) }

/-! ## Descriptors -/

/-- What a descriptor stands for. -/
def channel? (s : State) (d : Nat) : Option Channel :=
  s.descriptors.lookup d

/-- The state with a descriptor standing for a channel. -/
def connect (s : State) (d : Nat) (c : Channel) : State :=
  { s with descriptors := (d, c) :: s.descriptors.filter fun e => e.1 ≠ d }

/-- The state with a closed descriptor. -/
def disconnect (s : State) (d : Nat) : State :=
  { s with descriptors := s.descriptors.filter fun e => e.1 ≠ d }

/-- A new sink. -/
def newSink (s : State) : State × Nat :=
  ({ s with sinks := s.sinks ++ [[]] }, s.sinks.length)

/-- A new source. -/
def newSource (s : State) (content : Octets) : State × Nat :=
  ({ s with sources := s.sources ++ [content] }, s.sources.length)

/-- What was written to a sink. -/
def sinkContent (s : State) (i : Nat) : Octets :=
  (s.sinks.getD i []).reverse

/-- Writes to a channel. -/
def writeTo (s : State) (c : Channel) (content : Octets) : State :=
  match c with
  | .sink i => { s with sinks := s.sinks.modify i fun old => content.reverse ++ old }
  | .file node =>
    { s with host := s.host.revise node (· ++ content) id }
  | _ => s

/-- Writes to a descriptor. -/
def write (s : State) (d : Nat) (content : Octets) : State :=
  match s.channel? d with
  | some c => s.writeTo c content
  | none => s

/-- Writes a text to a descriptor. -/
def writeText (s : State) (d : Nat) (text : String) : State :=
  s.write d (Text.narrow text.toList)

/-- All that is left to read from a descriptor; of zeros without end only `limit`. -/
def readAll (s : State) (d limit : Nat) : Octets × State :=
  match s.channel? d with
  | some (.source i) => (s.sources.getD i [], { s with sources := s.sources.set i [] })
  | some .zeros => (List.replicate limit 0, s)
  | _ => ([], s)

/-- The octets up to a newline from a descriptor, and whether there was one. -/
def readLine (s : State) (d : Nat) : Octets × Bool × State :=
  match s.channel? d with
  | some (.source i) =>
    let left := s.sources.getD i []
    match left.dropWhile (· ≠ 10) with
    | _ :: r => (left.takeWhile (· ≠ 10), true, { s with sources := s.sources.set i r })
    | [] => (left, false, { s with sources := s.sources.set i [] })
  | _ => ([], false, s)

/-! ## Ends of commands -/

/-- The state after a command with a status. -/
def ended (s : State) (status : Nat) : State :=
  { s with status := status % 256 }

/-- A message of the shell itself about a line. -/
def complain (s : State) (line : Nat) (text : String) : State :=
  s.writeText 2 (s.name ++ ": " ++ toString line ++ ": " ++ text ++ "\n")

/-- The time is up. -/
def isLate (s : State) : Bool :=
  s.deadline.any (· ≤ s.clock)

end State

end CommitGate.Shell

import CommitGate.Act
import CommitGate.Gate

/-!
# Scripted surroundings

A script gives answers and results of commands one after the other. A question past the end of the
script is not answered, and a command past its end cannot be started.
-/

namespace CommitGate

/-- Prepared answers and results of commands on a fixed host. -/
structure Script where
  host : Host
  answers : List (Except String String)
  results : List (Except String CommandResult)

namespace Script

/-- Takes the next answer. -/
def answer (s : Script) : Except String String × Script :=
  match s.answers with
  | [] => (.error "no answer", s)
  | a :: r => (a, { s with answers := r })

/-- Takes the next result, for a command that is only named if it cannot be started. -/
def command (name : String) (s : Script) : Except Failure CommandResult × Script :=
  match s.results with
  | [] => (.error (.spawn name ["no result"]), s)
  | .error text :: r => (.error (.spawn name [text]), { s with results := r })
  | .ok result :: r => (.ok result, { s with results := r })

/-- The surroundings of a script. -/
def surroundings : Surroundings Script where
  host := Script.host
  answer := answer
  command name _ := command name

/-- The surroundings of a script in which every question gets the same answer. -/
def surroundingsAnswering (a : Answer) : Surroundings Script :=
  { surroundings with answer := fun s => (.ok a.input, s) }

end Script

end CommitGate

import CommitGate.CommandResult
import CommitGate.Emission
import CommitGate.Failure
import CommitGate.Host

/-!
# Acts

An act is a computation that says things, asks questions and calls commands. What it does is
recorded in order, next to its result; a failure ends it and keeps the record. The surroundings give
the answers and carry out the commands, on a world of any type, so that scripted surroundings and
real ones are values of one kind.

Results:

* `run_bind`: the record of two acts, one after the other, is the concatenation of their records.
-/

namespace CommitGate

/-- One thing done in sight of the outside. -/
inductive Event where
  | said (e : Emission)
  | asked
  | called (command : String) (directory : Path)
deriving DecidableEq, Repr

/-- What acts meet: the host as it is in a world, an answer (`AnswerSource`), and the result of a
command (`CommandRunner`). -/
structure Surroundings (σ : Type) where
  host : σ → Host
  /-- The next answer, or why there is none. -/
  answer : σ → Except String String × σ
  /-- The result of a command in a directory. -/
  command : String → Path → σ → Except Failure CommandResult × σ

/-- What an act has done. -/
structure Trace (σ α : Type) where
  events : List Event
  world : σ
  result : Except Failure α

/-- A computation in surroundings. -/
structure Act (σ α : Type) where
  run : Surroundings σ → σ → Trace σ α

namespace Act

variable {σ α β : Type}

/-- One act after the other; the second is not begun after a failure. -/
def andThen (a : Act σ α) (f : α → Act σ β) : Act σ β :=
  ⟨fun s w =>
    let t := a.run s w
    match t.result with
    | .error e => ⟨t.events, t.world, .error e⟩
    | .ok x =>
      let u := (f x).run s t.world
      ⟨t.events ++ u.events, u.world, u.result⟩⟩

instance : Monad (Act σ) where
  pure x := ⟨fun _ w => ⟨[], w, .ok x⟩⟩
  bind := andThen

/-- Ends with a failure. -/
def fail (e : Failure) : Act σ α :=
  ⟨fun _ w => ⟨[], w, .error e⟩⟩

/-- The value of a computation without effects. -/
def lift (x : Except Failure α) : Act σ α :=
  ⟨fun _ w => ⟨[], w, x⟩⟩

/-- The host at this moment. -/
def host : Act σ Host :=
  ⟨fun s w => ⟨[], w, .ok (s.host w)⟩⟩

/-- Says something. -/
def say (e : Emission) : Act σ Unit :=
  ⟨fun _ w => ⟨[.said e], w, .ok ()⟩⟩

/-- Asks for an answer. -/
def ask : Act σ (Except String String) :=
  ⟨fun s w => let (a, w) := s.answer w; ⟨[.asked], w, .ok a⟩⟩

/-- Calls a command in a directory; a command that cannot be started is a failure. -/
def call (command : String) (directory : Path) : Act σ CommandResult :=
  ⟨fun s w => let (r, w) := s.command command directory w; ⟨[.called command directory], w, r⟩⟩

/-- Calls a command in a directory; there is no result when it cannot be started. -/
def call? (command : String) (directory : Path) : Act σ (Option CommandResult) :=
  ⟨fun s w =>
    let (r, w) := s.command command directory w
    ⟨[.called command directory], w, .ok r.toOption⟩⟩

end Act

namespace Trace

variable {σ α : Type}

/-- What was said. -/
def said (t : Trace σ α) : List Emission :=
  t.events.filterMap fun | .said e => some e | _ => none

/-- The text of what was said. -/
def text (colors : Bool) (t : Trace σ α) : String :=
  Emission.renderAll colors t.said

/-- How many answers were asked for. -/
def asked (t : Trace σ α) : Nat :=
  t.events.count .asked

/-- The commands that were called, each with its directory. -/
def calls (t : Trace σ α) : List (String × Path) :=
  t.events.filterMap fun | .called c d => some (c, d) | _ => none

end Trace

theorem Act.run_bind {σ α β : Type} (a : Act σ α) (f : α → Act σ β) (s : Surroundings σ) (w : σ) :
    ((a >>= f).run s w).events =
      (a.run s w).events ++
        match (a.run s w).result with
        | .error _ => []
        | .ok x => ((f x).run s (a.run s w).world).events := by
  show ((Act.andThen a f).run s w).events = _
  simp only [Act.andThen]
  split <;> simp_all

end CommitGate

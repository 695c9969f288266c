import CommitGate.Config.Preset

/-!
# Invocations

An invocation is what the arguments of a call of the program mean: a command, and the options that
every command takes. Without a command the gate is run.
-/

namespace CommitGate.Cli

/-- When the program colours its output (`ColorChoice`). -/
inductive ColorChoice where
  | auto
  | always
  | never
deriving DecidableEq, Repr, Inhabited

namespace ColorChoice

/-- The word for a choice. -/
def keyword : ColorChoice → String
  | .auto => "auto"
  | .always => "always"
  | .never => "never"

/-- The choice of a word. -/
def ofKeyword? (s : String) : Option ColorChoice :=
  [auto, always, never].find? fun c => c.keyword = s

end ColorChoice

/-- A shell that completions are made for. -/
inductive CompletionShell where
  | bash
  | elvish
  | fish
  | powershell
  | zsh
deriving DecidableEq, Repr

namespace CompletionShell

/-- The word for a shell. -/
def keyword : CompletionShell → String
  | .bash => "bash"
  | .elvish => "elvish"
  | .fish => "fish"
  | .powershell => "powershell"
  | .zsh => "zsh"

/-- The shell of a word. -/
def ofKeyword? (s : String) : Option CompletionShell :=
  [bash, elvish, fish, powershell, zsh].find? fun c => c.keyword = s

end CompletionShell

/-- The options of a run of the gate (`RunArgs`). -/
structure RunOptions where
  /-- Takes the place of the root in the configuration. -/
  root : Option Path := none
  /-- The answer to the prompt is yes. -/
  yes : Bool := false
  /-- No tests are run. -/
  noTests : Bool := false
deriving DecidableEq, Repr, Inhabited

/-- What the program is to do (`Commands`). -/
inductive Command where
  | run (o : RunOptions)
  | scan (root : Option Path) (json : Bool)
  | init (preset : Option Preset) (force : Bool)
  | install (force : Bool)
  | uninstall
  | config (raw : Bool)
  | completions (shell : CompletionShell)
deriving DecidableEq, Repr

/-- A call of the program (`Cli`). -/
structure Invocation where
  command : Option Command := none
  verbose : Bool := false
  quiet : Bool := false
  color : ColorChoice := .auto
  /-- The configuration file to use instead of searching for one. -/
  config : Option Path := none
deriving DecidableEq, Repr

end CommitGate.Cli

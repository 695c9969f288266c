import CommitGate.Cli.Invocation

/-!
# Options and commands of the command line

Each option has a long name, some have a short one, and some take a value. An option can be given
once for each command, global options also before the command.

Results:

* `ofWord?_name`: every command is found by its name.
-/

namespace CommitGate.Cli

/-- An option, or the one argument without a name. -/
inductive Opt where
  | verbose
  | quiet
  | color
  | config
  | help
  | version
  | root
  | yes
  | noTests
  | json
  | preset
  | force
  | raw
  /-- The argument of the command that makes completions. -/
  | shell
deriving DecidableEq, Repr

namespace Opt

/-- The name after two dashes. -/
def long : Opt → String
  | .verbose => "verbose"
  | .quiet => "quiet"
  | .color => "color"
  | .config => "config"
  | .help => "help"
  | .version => "version"
  | .root => "root"
  | .yes => "yes"
  | .noTests => "no-tests"
  | .json => "json"
  | .preset => "preset"
  | .force => "force"
  | .raw => "raw"
  | .shell => ""

/-- The letter after one dash. -/
def short? : Opt → Option Char
  | .verbose => some 'v'
  | .quiet => some 'q'
  | .help => some 'h'
  | .version => some 'V'
  | .yes => some 'y'
  | .preset => some 'p'
  | .force => some 'f'
  | _ => none

/-- What the value stands for, when the option takes one. -/
def valueName? : Opt → Option String
  | .color => some "COLOR"
  | .config => some "PATH"
  | .root => some "DIR"
  | .preset => some "PRESET"
  | .shell => some "SHELL"
  | _ => none

/-- The option takes a value. -/
def takesValue (o : Opt) : Bool :=
  o.valueName?.isSome

/-- The option as messages name it. -/
def display : Opt → String
  | .shell => "<SHELL>"
  | o =>
    match o.valueName? with
    | some v => "--" ++ o.long ++ " <" ++ v ++ ">"
    | none => "--" ++ o.long

/-- The option may have this value, which is not empty. -/
def admits (o : Opt) (v : String) : Bool :=
  match o with
  | .color => (ColorChoice.ofKeyword? v).isSome
  | .preset => (Preset.ofName? v).isSome
  | .shell => (CompletionShell.ofKeyword? v).isSome
  | _ => true

/-- The options of every command. -/
def globals : List Opt := [.verbose, .quiet, .color, .config, .help, .version]

end Opt

/-- A command by name. -/
inductive CommandName where
  | run
  | scan
  | init
  | install
  | uninstall
  | config
  | completions
deriving DecidableEq, Repr

namespace CommandName

/-- All commands. -/
def all : List CommandName := [.run, .scan, .init, .install, .uninstall, .config, .completions]

/-- The name of a command. -/
def name : CommandName → String
  | .run => "run"
  | .scan => "scan"
  | .init => "init"
  | .install => "install"
  | .uninstall => "uninstall"
  | .config => "config"
  | .completions => "completions"

/-- The letter that also stands for a command. -/
def alias? : CommandName → Option String
  | .run => some "r"
  | .scan => some "s"
  | .init => some "i"
  | _ => none

/-- The command that a word stands for. -/
def ofWord? (s : String) : Option CommandName :=
  all.find? fun c => c.name = s ∨ c.alias? = some s

/-- The options of a command, the global ones apart. -/
def options : CommandName → List Opt
  | .run => [.root, .yes, .noTests]
  | .scan => [.root, .json]
  | .init => [.preset, .force]
  | .install => [.force]
  | .uninstall => []
  | .config => [.raw]
  | .completions => []

/-- The arguments without a name. -/
def positionals : CommandName → List Opt
  | .completions => [.shell]
  | _ => []

theorem ofWord?_name (c : CommandName) : ofWord? c.name = some c := by
  cases c <;> decide

end CommandName

end CommitGate.Cli

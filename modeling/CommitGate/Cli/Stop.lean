import CommitGate.Cli.Option

/-!
# Calls that end early

The arguments may ask for help or for the version, or they may not make sense. Then no command is
carried out.
-/

namespace CommitGate.Cli

/-- Why no command is carried out. -/
inductive Stop where
  /-- Help on the program or on one command. -/
  | help (command : Option CommandName)
  /-- The version of the program or of one command. -/
  | version (command : Option CommandName)
  | unknownArgument (arg : String)
  | invalidCommand (arg : String)
  /-- An option was given twice. -/
  | repeated (o : Opt)
  /-- Two options that exclude each other, in the order in which they were given. -/
  | conflict (o other : Opt)
  /-- The value of an option is missing or empty. -/
  | noValue (o : Opt)
  | invalidValue (o : Opt) (v : String)
  /-- An option that takes no value was given one. -/
  | needlessValue (o : Opt) (v : String)
  /-- An argument that has to be there is not. -/
  | missing (o : Opt)
deriving DecidableEq, Repr

namespace Stop

/-- The exit status: 0 for help and the version, 2 for arguments that make no sense. -/
def exitStatus : Stop → Nat
  | .help _ | .version _ => 0
  | _ => 2

/-- The version of the program. -/
def versionNumber : String := "0.1.0"

/-- The name of the program, or of one of its commands. -/
def programName : Option CommandName → String
  | none => "pcg"
  | some c => "pcg-" ++ c.name

/-- The usage line. -/
def usage : Option CommandName → String
  | none => "Usage: pcg [OPTIONS] [COMMAND]"
  | some c =>
    "Usage: pcg " ++ c.name ++ " [OPTIONS]"
      ++ String.join (c.positionals.map fun o => " " ++ o.display)

/-- The lines of help. -/
def helpLines (c : Option CommandName) : List String :=
  let named := (c.elim [] CommandName.options) ++ Opt.globals
  [usage c]
    ++ (if c = none then "" :: "Commands:" :: CommandName.all.map fun n => "  " ++ n.name else [])
    ++ ["", "Options:"] ++ named.map fun o => "  " ++ o.display

/-- What goes to the standard output. -/
def output : Stop → String
  | .help c => String.join ((helpLines c).map (· ++ "\n"))
  | .version c => programName c ++ " " ++ versionNumber ++ "\n"
  | _ => ""

/-- What is wrong with the arguments, in one line. Arguments are kept octet by octet, and shown as
text. -/
def message : Stop → String
  | .help _ | .version _ => ""
  | .unknownArgument arg => "error: unexpected argument '" ++ shown arg ++ "' found"
  | .invalidCommand arg => "error: unrecognized subcommand '" ++ shown arg ++ "'"
  | .repeated o => "error: the argument '" ++ o.display ++ "' cannot be used multiple times"
  | .conflict o other =>
    "error: the argument '" ++ o.display ++ "' cannot be used with '" ++ other.display ++ "'"
  | .noValue o => "error: a value is required for '" ++ o.display ++ "' but none was supplied"
  | .invalidValue o v => "error: invalid value '" ++ shown v ++ "' for '" ++ o.display ++ "'"
  | .needlessValue o v =>
    "error: unexpected value '" ++ shown v ++ "' for '" ++ o.display
      ++ "' found; no more were expected"
  | .missing _ => "error: the following required arguments were not provided:"
where
  shown (arg : String) : String := (RawText.ofWide arg).shown

end Stop

end CommitGate.Cli

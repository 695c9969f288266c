import CommitGate.Cli.Stop
import CommitGate.Text.Search

/-!
# Reading arguments

The arguments are read from left to right. Options up to the first command belong to the program,
all after it to the command. An option waits for its value until the next argument; the value is
looked at when the next option comes or the command ends, so of two faults the one that is noticed
first is reported. An argument need not be text: it is read octet by octet, so the texts here are
such that each of their characters is one octet.
-/

namespace CommitGate.Cli

/-! ## Single arguments -/

/-- The form of an argument. -/
inductive Form where
  /-- Two dashes: everything after them has no name. -/
  | escape
  /-- A long name, perhaps with a value after an equals sign. -/
  | long (name : List Char) (value : Option String)
  /-- A run of letters after one dash. -/
  | short (letters : List Char)
  | plain
deriving DecidableEq, Repr

/-- The form of an argument. -/
def Form.of : List Char → Form
  | ['-', '-'] => .escape
  | '-' :: '-' :: s =>
    .long (s.takeWhile (· ≠ '=')) (match s.dropWhile (· ≠ '=') with
      | [] => none
      | _ :: v => some (String.ofList v))
  | '-' :: c :: s => .short (c :: s)
  | _ => .plain

/-! ## What has been given -/

/-- The scope that arguments are read in: the program, or one of its commands. -/
abbrev Scope := Option CommandName

/-- The options of a scope. -/
def Scope.options (l : Scope) : List Opt :=
  l.elim [] CommandName.options ++ Opt.globals

/-- What has been read in one scope. -/
structure Given where
  /-- The options, in the order in which they were accepted, with their values; without one the text
  is empty. -/
  values : List (Opt × String)
  /-- An option whose value has not been looked at; it waits when there is none yet. -/
  pending : Option (Opt × Option String)
  /-- The arguments without a name that may still come. -/
  positionals : List Opt
  /-- Two dashes have been read. -/
  escaped : Bool
deriving DecidableEq, Repr

namespace Given

/-- Nothing has been read in the scope. -/
def start (l : Scope) : Given :=
  ⟨[], none, l.elim [] CommandName.positionals, false⟩

/-- The option that waits for its value. -/
def waiting? (g : Given) : Option Opt :=
  match g.pending with
  | some (o, none) => some o
  | _ => none

/-- The option was given. -/
def has (g : Given) (o : Opt) : Bool :=
  g.values.any fun v => v.1 = o

/-- Accepts an option with its value, when nothing is pending. -/
def accept (l : Scope) (g : Given) (o : Opt) (value : Option String) : Except Stop Given :=
  if o.takesValue ∧ value = none then .error (.noValue o)
  else if o = .help then .error (.help l)
  else if o = .version then .error (.version l)
  else if g.has o then .error (.repeated o)
  else if o.takesValue ∧ value = some "" then .error (.noValue o)
  else if o.takesValue ∧ !o.admits (value.getD "") then .error (.invalidValue o (value.getD ""))
  else .ok { g with values := g.values ++ [(o, value.getD "")] }

/-- Accepts the pending option. -/
def resolve (l : Scope) (g : Given) : Except Stop Given :=
  match g.pending with
  | none => .ok g
  | some (o, value) => accept l { g with pending := none } o value

/-- Begins an option: one without a value yet waits for it. -/
def begin (l : Scope) (g : Given) (o : Opt) (value : Option String) : Except Stop Given := do
  let g ← g.resolve l
  if o.takesValue ∧ value = none then .ok { g with pending := some (o, none) }
  else g.accept l o value

end Given

/-! ## Options -/

/-- The option of a long name. -/
def Scope.long? (l : Scope) (name : List Char) : Option Opt :=
  l.options.find? fun o => o.long.toList = name

/-- The option of a letter. -/
def Scope.short? (l : Scope) (c : Char) : Option Opt :=
  l.options.find? fun o => o.short? = some c

/-- Reads a long option. -/
def readLong (l : Scope) (g : Given) (name : List Char) (value : Option String) :
    Except Stop Given :=
  match l.long? name with
  | none => .error (.unknownArgument ("--" ++ String.ofList name))
  | some o =>
    match o.takesValue, value with
    | false, some v => .error (.needlessValue o v)
    | _, _ => g.begin l o value

/-- The character that the text begins with: a letter, or the octets that make one up. -/
def firstLetter (c : Char) (r : List Char) : String :=
  String.ofList (c :: r.takeWhile fun d => 0x80 ≤ d.toNat && d.toNat < 0xC0)

/-- Reads letters after a dash; what follows the letter of an option with a value is its value. -/
def readShort (l : Scope) (g : Given) : List Char → Except Stop Given
  | [] => .ok g
  | c :: r =>
    match l.short? c with
    | none => .error (.unknownArgument ("-" ++ firstLetter c r))
    | some o =>
      if o.takesValue then
        match r with
        | [] => g.begin l o none
        | '=' :: v => g.begin l o (some (String.ofList v))
        | v => g.begin l o (some (String.ofList v))
      else do
        let g ← g.begin l o none
        readShort l g r

/-! ## Arguments -/

/-- A word that may stand in the place of a command. -/
inductive CommandWord where
  | help
  | command (c : CommandName)
deriving DecidableEq, Repr

/-- The command that a word stands for in a scope; only the program has commands. -/
def Scope.commandWord? (l : Scope) (a : String) : Option CommandWord :=
  if l ≠ none then none
  else if a = "help" then some .help
  else (CommandName.ofWord? a).map .command

/-- The help on a command that the words name. -/
def helpOn : List String → Stop
  | [] => .help none
  | a :: r =>
    if a = "help" then r.head?.elim (.help none) .invalidCommand
    else
      match CommandName.ofWord? a with
      | none => .invalidCommand a
      | some c => r.head?.elim (.help (some c)) .invalidCommand

/-- Reads an argument without a name. -/
def readPositional (l : Scope) (g : Given) (a : String) : Except Stop Given :=
  match g.positionals with
  | o :: os => do
    let g ← g.resolve l
    .ok { g with pending := some (o, some a), positionals := os }
  | [] =>
    if l = none ∧ ¬(g.escaped ∧ (l.commandWord? a).isSome) then .error (.invalidCommand a)
    else .error (.unknownArgument a)

/-- Reads the arguments of a scope: what is given, and the command with its arguments that ends the
scope. -/
def readArguments (l : Scope) (g : Given) :
    List String → Except Stop (Given × Option (CommandName × List String))
  | [] => .ok (g, none)
  | a :: r =>
    if g.escaped then do readArguments l (← readPositional l g a) r
    else
      match g.waiting?, l.commandWord? a, Form.of a.toList with
      | none, some .help, _ => .error (helpOn r)
      | none, some (.command c), _ => .ok (g, some (c, r))
      | _, _, .escape => readArguments l { g with escaped := true } r
      | _, _, .long name value => do readArguments l (← readLong l g name value) r
      | _, _, .short letters => do readArguments l (← readShort l g letters) r
      | some o, _, .plain => readArguments l { g with pending := some (o, some a) } r
      | none, none, .plain => do readArguments l (← readPositional l g a) r

/-- Options that exclude each other. -/
def excludes : Opt → Option Opt
  | .yes => some .noTests
  | .noTests => some .yes
  | _ => none

/-- Checks what is given once a scope has been read. -/
def Given.finish (l : Scope) (g : Given) : Except Stop Given := do
  let g ← g.resolve l
  match g.values.find? fun v => (excludes v.1).any g.has with
  | some (o, _) => .error (.conflict o ((excludes o).getD o))
  | none =>
    match g.positionals with
    | o :: _ => .error (.missing o)
    | [] => .ok g

/-! ## Invocations -/

namespace Given

/-- The value of an option. -/
def value? (g : Given) (o : Opt) : Option String :=
  g.values.lookup o

/-- The value of an option as a path. -/
def path? (g : Given) (o : Opt) : Option Path :=
  (g.value? o).map Path.ofWide

/-- The command that is given. -/
def command? (g : Given) : CommandName → Option Command
  | .run => some (.run ⟨g.path? .root, g.has .yes, g.has .noTests⟩)
  | .scan => some (.scan (g.path? .root) (g.has .json))
  | .init => some (.init ((g.value? .preset).bind Preset.ofName?) (g.has .force))
  | .install => some (.install (g.has .force))
  | .uninstall => some .uninstall
  | .config => some (.config (g.has .raw))
  | .completions => ((g.value? .shell).bind CompletionShell.ofKeyword?).map .completions

end Given

/-- The invocation of what is given to the program and to a command. A global option of the command
counts before that of the program. -/
def Invocation.of (outer : Given) (inner : Option (CommandName × Given)) : Invocation :=
  let own : Given := inner.elim (Given.start none) (·.2)
  let value? := fun o => (own.value? o).or (outer.value? o)
  { command := inner.bind fun (c, g) => g.command? c
    verbose := own.has .verbose || outer.has .verbose
    quiet := own.has .quiet || outer.has .quiet
    color := ((value? .color).bind ColorChoice.ofKeyword?).getD .auto
    config := (value? .config).map Path.ofWide }

/-- The invocation that the arguments mean, octet by octet. -/
def Invocation.ofWide (args : List String) : Except Stop Invocation := do
  let (outer, command) ← readArguments none (Given.start none) args
  match command with
  | none => do .ok (Invocation.of (← outer.finish none) none)
  | some (c, rest) => do
    let (inner, _) ← readArguments (some c) (Given.start (some c)) rest
    let inner ← inner.finish (some c)
    let outer ← outer.finish none
    .ok (Invocation.of outer (some (c, inner)))

/-- The invocation that the arguments mean, the name of the program left out (`Cli::parse`). -/
def Invocation.ofArguments (args : List RawText) : Except Stop Invocation :=
  Invocation.ofWide (args.map RawText.wide)

end CommitGate.Cli

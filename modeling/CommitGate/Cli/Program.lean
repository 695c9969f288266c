import CommitGate.Cli.Arguments
import CommitGate.Cli.Completions
import CommitGate.Cli.Output
import CommitGate.Config.Location
import CommitGate.Hook
import CommitGate.Scan
import CommitGate.Shell.Run

/-!
# The program

A call of the program turns arguments and a host into an output and the host afterwards. Each
command is a function of its own; `call` reads the arguments and chooses one.

Results:

* `runGate_of_skip`: with `PCG_SKIP=1` a run does nothing, whatever the configuration.
* `perform_scan_host`: a scan leaves the host as it is.
-/

namespace CommitGate.Cli

/-! ## Surroundings -/

/-- The device that answers are read from. -/
def terminal : Path := ⟨"/dev/tty"⟩

/-- The line that is typed at the terminal, or why there is none (`TtyAnswers::read_answer`). -/
def typedLine (h : Host) : Except String String :=
  match h.readText terminal with
  | .ok s => .ok ((Text.lines s).headD "")
  | .error e => .error e.text

/-- The surroundings of a call: answers come from the terminal unless one is given for all
questions, and commands run on the host for at most the time given. -/
def surroundings (given : Option Answer) (limit : Option Duration) : Surroundings Host where
  host := id
  answer h := (given.elim (typedLine h) fun a => .ok a.input, h)
  command := Host.runCommand (limit.map Duration.millis)

/-- Colours are asked for, or forced by a variable where the choice is left open (`setup_color`). -/
def ColorChoice.isOn (c : ColorChoice) (h : Host) : Bool :=
  match c with
  | .always => true
  | .never => false
  | .auto => ((h.value? "CLICOLOR_FORCE").bind RawText.text?).any (· ≠ "0")

variable [Toml.Diagnosis]

/-! ## Checking -/

/-- The variable that passes a run over when it is 1. -/
def skipVariable : String := "PCG_SKIP"

/-- The configuration as the options of a run change it. -/
def RunOptions.adjust (o : RunOptions) (c : Config) : Config :=
  { c with
    project := { c.project with root := o.root.getD c.project.root }
    tests := { c.tests with enabled := c.tests.enabled && !o.noTests } }

/-- The configuration with another root. -/
def withRoot (root : Option Path) (c : Config) : Config :=
  { c with project := { c.project with root := root.getD c.project.root } }

/-- Runs the gate (`run`). -/
def runGate (colors : Bool) (file : Option Path) (o : RunOptions) (h : Host) : Output × Host :=
  if h.value? skipVariable = some ↑"1" then
    ({ errors := notice colors .remark ("Skipping pre-commit gate (" ++ skipVariable ++ "=1)") }, h)
  else
    match h.effectiveConfig file with
    | .error e => (.ofFailure e, h)
    | .ok c =>
      let c := o.adjust c
      let given := if o.yes then some Answer.yes else none
      let t := c.run.run (surroundings given c.tests.timeLimit?) h
      (.ofTrace colors RunOutcome.exitStatus t, t.world)

/-- Applies the rules alone (`scan`). -/
def scanProject (colors : Bool) (file root : Option Path) (json : Bool) (h : Host) : Output :=
  match h.effectiveConfig file with
  | .error e => .ofFailure e
  | .ok c =>
    let c := withRoot root c
    let act := if json then c.scanJson else c.scan
    .ofTrace colors id (act.run (surroundings none none) h)

/-! ## Configurations -/

/-- What is said after a configuration was made. -/
def nextSteps : String :=
  "\nNext steps:\n  1. Review and customize " ++ Config.fileName ++ "\n  2. Run: pcg install\n"

/-- Writes a configuration into the working directory; one that is there is kept unless that is
forced (`init`). -/
def writeConfig (colors : Bool) (preset : Option Preset) (force : Bool) (h : Host) :
    Output × Host :=
  let file : Path := ⟨Config.fileName⟩
  if h.pathExists file ∧ !force then
    ({ errors := notice colors .warning ("Configuration already exists: " ++ file.shown)
        ++ "  Use --force to overwrite.\n"
       status := 1 }, h)
  else
    match (preset.elim {} Preset.config).write with
    | .error e => (.ofFailure e, h)
    | .ok text =>
      match h.writeFile file (Text.encode text.toList) with
      | .error e => (.ofFailure (.ofFault "write config" e), h)
      | .ok made =>
        let created := notice colors .done ("Created " ++ file.shown)
        let chosen := preset.elim "" fun p =>
          "  Using preset: " ++ p.name ++ " (" ++ p.description ++ ")\n"
        ({ errors := created ++ chosen ++ nextSteps }, made)

/-- The text of a configuration file: as it stands, or with all that it means. -/
def shownText (h : Host) (file : Path) (raw : Bool) : Except Failure String :=
  if raw then
    match h.readText file with
    | .ok s => .ok s
    | .error e => .error (.ofFault "read config" e)
  else do
    (← h.settledConfig file).write

/-- Shows the configuration that holds (`config`). -/
def showConfig (colors : Bool) (given : Option Path) (raw : Bool) (h : Host) : Output :=
  match given.elim (h.findConfig h.workingPath) .ok with
  | .ok file =>
    let named : Output := { errors := "Configuration file: " ++ file.shown ++ "\n" }
    match shownText h file raw with
    | .error e => named.failing e
    | .ok text => { named with errors := named.errors ++ "\n", standard := text }
  | .error _ =>
    let warned : Output :=
      { errors := notice colors .warning "No configuration file found, defaults:"
          ++ "  Run: pcg init\n\n" }
    match ({} : Config).write with
    | .error e => warned.failing e
    | .ok text => { warned with standard := text }

/-! ## The hook -/

/-- What is said about an installation. -/
def Output.ofInstallation (colors : Bool) : Installation → Output
  | .already p => { errors := notice colors .done ("Hook already installed at " ++ p.shown) }
  | .installed p backup =>
    { errors := backup.elim "" (fun b =>
          notice colors .remark ("Backed up existing hook to " ++ b.shown))
        ++ notice colors .done ("Installed pre-commit hook at " ++ p.shown) }

/-- What is said about a removal. -/
def Output.ofRemoval (colors : Bool) : Removal → Output
  | .absent p => { errors := notice colors .remark ("No hook installed at " ++ p.shown) }
  | .foreign p =>
    { errors := notice colors .warning
          ("Hook at " ++ p.shown ++ " was not installed by precommit-gate")
        ++ "  Remove manually if desired.\n"
      status := 1 }
  | .removed p backup =>
    { errors := notice colors .done ("Removed pre-commit hook from " ++ p.shown)
        ++ backup.elim "" fun b => "  Backup exists at " ++ b.shown ++ " - restore if needed\n" }

/-- Changes the hooks of the repository at hand (`discover`). -/
def onHooks {α : Type} (f : Host → Path → Except Failure α × Host) (report : α → Output)
    (h : Host) : Output × Host :=
  match h.repository h.workingPath with
  | .error e => (.ofFailure e, h)
  | .ok r =>
    match f h (h.hooksDirectory r) with
    | (.ok a, h) => (report a, h)
    | (.error e, h) => (.ofFailure e, h)

/-- Installs the hook (`install`). -/
def installHook (colors force : Bool) (h : Host) : Output × Host :=
  onHooks (fun h hooks => h.installHook hooks force) (Output.ofInstallation colors) h

/-- Removes the hook (`uninstall`). -/
def uninstallHook (colors : Bool) (h : Host) : Output × Host :=
  onHooks Host.uninstallHook (Output.ofRemoval colors) h

/-! ## Calls -/

/-- Carries out an invocation. -/
def Invocation.perform (i : Invocation) (h : Host) : Output × Host :=
  let colors := i.color.isOn h
  match i.command.getD (.run {}) with
  | .run o => runGate colors i.config o h
  | .scan root json => (scanProject colors i.config root json h, h)
  | .init preset force => writeConfig colors preset force h
  | .install force => installHook colors force h
  | .uninstall => uninstallHook colors h
  | .config raw => (showConfig colors i.config raw h, h)
  | .completions shell => ({ standard := shell.script }, h)

/-- Calls the program with arguments on a host (`cli::run`). -/
def call (args : List RawText) (h : Host) : Output × Host :=
  match Invocation.ofArguments args with
  | .error s => (.ofStop s, h)
  | .ok i => i.perform h

theorem runGate_of_skip {colors : Bool} {file : Option Path} {o : RunOptions} {h : Host}
    (s : h.value? skipVariable = some ↑"1") :
    (runGate colors file o h).2 = h ∧ (runGate colors file o h).1.status = 0 := by
  simp [runGate, s]

theorem perform_scan_host (i : Invocation) (root : Option Path) (json : Bool) (h : Host)
    (s : i.command = some (.scan root json)) : (i.perform h).2 = h := by
  simp [Invocation.perform, s]

end CommitGate.Cli

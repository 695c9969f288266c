import CommitGate.Change
import CommitGate.Cli.Program

/-!
# The command line

The names of the files and directories that the program works on come in on the standard input, one
on a line, as `find` prints them. The program is called on a host that holds them, and what it
changes is written back. Commands are carried out by the shell of the library, not by that of the
machine.
-/

namespace CommitGate

/-- The variables that the program and its shell look at. -/
def passedVariables : List String :=
  ["PATH", "HOME", Cli.skipVariable, "CLICOLOR_FORCE", "GIT_CEILING_DIRECTORIES"]

/-- The lines of the standard input. -/
partial def readNames (input : IO.FS.Stream) (names : List String) : IO (List String) := do
  let line ← input.getLine
  if line.isEmpty then return names.reverse
  readNames input (Text.lines line ++ names)

/-- Takes a file or directory of the machine over. -/
def takeOver (h : Host) (name : String) : IO Host := do
  let path : Path := ⟨name⟩
  try
    let content := (← IO.FS.readBinFile name).toList
    let (_, h) := (path.parent?).elim (.ok (), h) h.makePath
    let mode := if (Shell.interpreter? content).isSome then Entry.scriptMode else Entry.plainMode
    return ((h.writeFile path content).bind fun h => h.setMode path mode).toOption.getD h
  catch _ => return (h.makePath path).2

/-- Carries a change out on the machine. -/
def carryBack : Change → IO Unit
  | .remove place => IO.FS.removeFile (Host.absolute place).shown
  | .write f => do
    IO.FS.createDirAll (Host.absolute f.place.dropLast).shown
    let name := (Host.absolute f.place).shown
    IO.FS.writeBinFile name ⟨f.content.toArray⟩
    if Entry.isExecutable (.file f.node f.content f.mode) then
      let all : IO.AccessRight := { read := true, write := true, execution := true }
      let others := { all with write := false }
      IO.setAccessRights name { user := all, group := others, other := others }

attribute [local instance] Toml.Diagnosis.silent

/-- Calls the program on the machine; the result is its exit status. -/
def callOnMachine (args : List String) : IO UInt32 := do
  let bindings ← passedVariables.filterMapM fun n => do
    return (← IO.getEnv n).map fun v => (n, (v : RawText))
  let directory := toString (← IO.currentDir)
  let (_, made) := (⟨Shell.plainTree, [], bindings⟩ : Host).makePath ⟨directory⟩
  let inside := ((made.enter ⟨directory⟩).toOption).getD made
  let host ← (← readNames (← IO.getStdin) []).foldlM takeOver inside
  let (output, after) := Cli.call (args.map RawText.ofString) host
  (host.tree.changes after.tree).forM carryBack
  (← IO.getStdout).putStr output.standard
  (← IO.getStderr).putStr output.errors
  return output.status.toUInt32

end CommitGate

/-- Calls the program with the arguments of the command line. -/
def main (args : List String) : IO UInt32 :=
  CommitGate.callOnMachine args

import CommitGate.Config.Text
import CommitGate.Host

/-!
# Where a configuration is found

A configuration is a file called `precommit-gate.toml` in the directory at hand or the nearest one
above it. Without such a file the defaults hold. A relative root of the project is taken from the
directory of the file.

Results:

* `settledIn_of_isAbsolute`: an absolute root is taken as it is.
-/

namespace CommitGate

namespace Config

/-- The name of the file that holds a configuration. -/
def fileName : String := "precommit-gate.toml"

/-- The configuration with a relative root taken from the directory of its file, unless that is
empty (`load_config`). -/
def settledIn (file : Path) (c : Config) : Config :=
  match file.parent? with
  | some directory =>
    if c.project.root.isAbsolute ∨ directory.spelling.octets = [] then c
    else { c with project := { c.project with root := directory.join c.project.root } }
  | none => c

theorem settledIn_of_isAbsolute {c : Config} (h : c.project.root.isAbsolute = true) (file : Path) :
    c.settledIn file = c := by
  rw [settledIn]
  split <;> simp [h]

end Config

namespace Host

variable [Toml.Diagnosis]

/-- The configuration file for the directory `start` (`Config::find_config_file_from`). -/
def findConfig (h : Host) (start : Path) : Except Failure Path :=
  match (start.ancestors.map (·.child Config.fileName)).find? h.isFile with
  | some p => .ok p
  | none => .error (.configNotFound (start.child Config.fileName))

/-- The text of a configuration file. -/
def configText (h : Host) (p : Path) : Except Failure String :=
  match h.readText p with
  | .ok s => .ok s
  | .error .notFound => .error (.configNotFound p)
  | .error e => .error (.ofFault "read config" e)

/-- The configuration in a file (`Config::load_from`). -/
def loadConfig (h : Host) (p : Path) : Except Failure Config := do
  Config.read (← h.configText p)

/-- The configuration for the working directory (`Config::load`). -/
def loadNearest (h : Host) : Except Failure Config := do
  h.loadConfig (← h.findConfig h.workingPath)

/-- The configuration for the working directory, or else the defaults (`Config::load_or_default`).
-/
def loadNearestOrDefault (h : Host) : Except Failure Config :=
  match h.findConfig h.workingPath with
  | .ok p => h.loadConfig p
  | .error _ => .ok {}

/-- The configuration in a file, with the root that it means. -/
def settledConfig (h : Host) (p : Path) : Except Failure Config := do
  return (← h.loadConfig p).settledIn p

/-- The configuration that holds: that of the file given, or of the nearest file, or else the
defaults (`load_config`). -/
def effectiveConfig (h : Host) (given : Option Path) : Except Failure Config :=
  match given with
  | some p => h.settledConfig p
  | none =>
    match h.findConfig h.workingPath with
    | .ok p => h.settledConfig p
    | .error _ => .ok {}

end Host

end CommitGate

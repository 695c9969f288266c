import CommitGate.Act
import CommitGate.Config.Basic
import CommitGate.Version

/-!
# The toolchain

Before anything is checked, the tool that the tests need has to be there and new enough. A tool that
is not makes the environment unsupported, which is no failure: the run is passed over.
-/

namespace CommitGate

/-- Why an environment does not do (`Unsupported`). -/
inductive Unsupported where
  | toolMissing (tool : String)
  | versionUnknown (tool : String)
  | tooOld (tool : String) (found required : Version)
deriving DecidableEq, Repr

/-- What an environment lacks, in words (`Display for Unsupported`). -/
def Unsupported.text : Unsupported → String
  | .toolMissing tool => tool ++ " not found"
  | .versionUnknown tool => "Could not determine " ++ tool ++ " version"
  | .tooOld tool found required =>
    "Insufficient " ++ tool ++ " version " ++ found.text ++ " (need " ++ required.text ++ ")"

/-- What is known about the environment (`Environment`). -/
inductive Environment where
  | unchecked
  | supported (version : Version)
  | unsupported (reason : Unsupported)
deriving DecidableEq, Repr

/-- Everything but an unsupported environment will do (`Environment::is_supported`). -/
def Environment.isSupported : Environment → Bool
  | .unsupported _ => false
  | _ => true

namespace EnvironmentConfig

/-- The least version; a text that is no version asks for nothing. -/
def required (e : EnvironmentConfig) : Version :=
  match Version.parse e.minVersion with
  | .ok v => v
  | .error _ => ⟨0, 0, 0⟩

/-- Judges the output of the version command (`Detector::evaluate`). -/
def evaluate (e : EnvironmentConfig) (output : String) : Environment :=
  match Version.find? output.toList with
  | none => .unsupported (.versionUnknown e.tool)
  | some found =>
    if e.required ≤ found then .supported found else .unsupported (.tooOld e.tool found e.required)

/-- The command that shows the version of the tool. -/
def versionCommand (e : EnvironmentConfig) : String :=
  e.tool ++ " " ++ e.versionArg

/-- Looks for the tool and asks it for its version in a directory (`Detector::detect`). -/
def detect {σ : Type} (e : EnvironmentConfig) (directory : Path) : Act σ Environment := do
  if !e.check then return .unchecked
  let host ← Act.host
  if (host.findProgram? e.tool).isNone then return .unsupported (.toolMissing e.tool)
  match ← Act.call? e.versionCommand directory with
  | none => return .unsupported (.versionUnknown e.tool)
  | some r => return e.evaluate ("\n".intercalate r.output)

end EnvironmentConfig

end CommitGate

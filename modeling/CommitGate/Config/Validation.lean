import CommitGate.Config.Basic
import CommitGate.Failure
import CommitGate.Version

/-!
# Validation of configurations

A configuration that is read has to make sense before it is used. The first thing that does not is
reported, rules before the tests and the tests before the environment.

Results:

* `checkEnvironment_of_not_check`: without a check the environment may hold anything.
-/

namespace CommitGate.Config

/-- What is wrong with the rule at position `i`. -/
def checkRule (i : Nat) (r : Rule) : Except Failure Unit :=
  if Text.allBlank r.label then .error (.configInvalid s!"rules[{i}].label" "must not be empty")
  else if r.patterns = [] then
    .error (.configInvalid s!"rules[{i}].patterns" s!"rule '{r.label}' has no patterns")
  else if "" ∈ r.patterns then
    .error (.configInvalid s!"rules[{i}].patterns" s!"rule '{r.label}' has an empty pattern")
  else .ok ()

/-- What is wrong with the first bad rule of a list that starts at position `i`. -/
def checkRules : Nat → List Rule → Except Failure Unit
  | _, [] => .ok ()
  | i, r :: rs => do
    checkRule i r
    checkRules (i + 1) rs

/-- What is wrong with the test gate. -/
def checkTests (t : TestsConfig) : Except Failure Unit :=
  if Text.allBlank t.command then .error (.configInvalid "tests.command" "must not be empty")
  else
    match t.timeout with
    | none => .ok ()
    | some s =>
      if (Duration.parse? s).isSome then .ok ()
      else .error (.configInvalid "tests.timeout" s!"Invalid duration: {s}")

/-- What is wrong with the environment, if it is checked at all. -/
def checkEnvironment (e : EnvironmentConfig) : Except Failure Unit :=
  if !e.check then .ok ()
  else if Text.allBlank e.tool then .error (.configInvalid "environment.tool" "must not be empty")
  else
    match Version.parse e.minVersion with
    | .ok _ => .ok ()
    | .error fault => .error (.configInvalid "environment.min_version" (fault.message e.minVersion))

/-- What is wrong with a configuration (`Config::validate`). -/
def validate (c : Config) : Except Failure Unit := do
  checkRules 0 c.rules
  checkTests c.tests
  checkEnvironment c.environment

theorem checkEnvironment_of_not_check {e : EnvironmentConfig} (h : e.check = false) :
    checkEnvironment e = .ok () := by
  simp [checkEnvironment, h]

end CommitGate.Config

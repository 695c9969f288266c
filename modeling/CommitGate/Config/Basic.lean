import CommitGate.BuiltIn
import CommitGate.Duration
import CommitGate.Text.Search

/-!
# Configurations

A configuration says which files are scanned, how the tests are run, which tool has to be there,
what blocks a commit and which rules are checked. Every field has a default; the defaults together
suit a PHP project.

Results:

* `commandLine_of_not_occursIn`: a command without the placeholder is run as it stands.
-/

namespace CommitGate

/-- Which files are scanned (`ProjectConfig`). -/
structure ProjectConfig where
  root : Path := ⟨"."⟩
  extensions : List String := ["php", "php5"]
  exclude : List String := ["vendor"]
deriving DecidableEq, Repr

/-- The test gate (`TestsConfig`). -/
structure TestsConfig where
  enabled : Bool := true
  command : String := "phpunit --configuration \x7bconfig\x7d"
  config : String := "phpunit.xml"
  /-- The gate is passed over when the test configuration is missing. -/
  requireConfig : Bool := true
  prompt : String := "Would you like to run tests before committing?"
  timeout : Option String := none
  /-- How many lines at the end of the output are shown after a failure; 0 shows all. -/
  failureOutputLines : Nat := 0
deriving DecidableEq, Repr

/-- The tool that has to be there (`EnvironmentConfig`). -/
structure EnvironmentConfig where
  check : Bool := true
  tool : String := "php"
  versionArg : String := "--version"
  minVersion : String := "5.4"
deriving DecidableEq, Repr

/-- What blocks a commit besides failing tests (`PolicyConfig`). -/
structure PolicyConfig where
  blockOnError : Bool := false
deriving DecidableEq, Repr

/-- A configuration (`Config`). -/
structure Config where
  project : ProjectConfig := {}
  tests : TestsConfig := {}
  environment : EnvironmentConfig := {}
  policy : PolicyConfig := {}
  rules : List Rule := BuiltIn.php
deriving DecidableEq, Repr

namespace TestsConfig

/-- Stands for the test configuration in a command. -/
def placeholder : List Char := "\x7bconfig\x7d".toList

/-- The command with the test configuration in place of every placeholder
(`TestsConfig::command_line`). -/
def commandLine (t : TestsConfig) : String :=
  String.ofList (Text.replaceAll placeholder t.config.toList t.command.toList)

/-- The time that a test run may take (`TestsConfig::timeout_duration`). -/
def timeLimit? (t : TestsConfig) : Option Duration :=
  t.timeout.bind Duration.parse?

theorem commandLine_of_not_occursIn {t : TestsConfig}
    (h : Text.occursIn placeholder t.command.toList = false) : t.commandLine = t.command := by
  simp [commandLine, Text.replaceAll, Text.splitOn_of_not_occursIn h, List.intercalate]

end TestsConfig

end CommitGate

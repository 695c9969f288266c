import CommitGate.Config.Fields
import CommitGate.Config.Validation
import CommitGate.Toml.Document
import CommitGate.Toml.Writer

/-!
# Configurations as text

A configuration is read from a TOML document and validated. It is written with one block for each
section and one for each rule, all fields given but a timeout that is not set. What is said about a
document that cannot be read is the matter of the parser, and left open here.
-/

namespace CommitGate

/-- The text of the error for a document that is no TOML or has fields of another kind. -/
class Toml.Diagnosis where
  text : String → String

/-- Nothing is said about such a document. -/
abbrev Toml.Diagnosis.silent : Toml.Diagnosis := ⟨fun _ => ""⟩

namespace Config

/-- The configuration that a text describes (`Config::from_toml`). -/
def read [Toml.Diagnosis] (text : String) : Except Failure Config :=
  match (Toml.parse? text).bind ofEntries? with
  | none => .error (.configParse "Failed to parse TOML" [Toml.Diagnosis.text text])
  | some c => c.validate.map fun _ => c

open Toml (Block Pair Plain)

/-- The fields of the project section, whose root is the text given. -/
def projectPairs (p : ProjectConfig) (root : String) : List Pair := [
  ("root", .text root),
  ("extensions", .texts p.extensions),
  ("exclude", .texts p.exclude)]

/-- The fields of the tests section. -/
def testsPairs (t : TestsConfig) : List Pair := [
  ("enabled", .boolean t.enabled),
  ("command", .text t.command),
  ("config", .text t.config),
  ("require_config", .boolean t.requireConfig),
  ("prompt", .text t.prompt)]
  ++ t.timeout.toList.map (fun s => ("timeout", .text s))
  ++ [("failure_output_lines", .natural t.failureOutputLines)]

/-- The fields of the environment section. -/
def environmentPairs (e : EnvironmentConfig) : List Pair := [
  ("check", .boolean e.check),
  ("tool", .text e.tool),
  ("version_arg", .text e.versionArg),
  ("min_version", .text e.minVersion)]

/-- The fields of the policy section. -/
def policyPairs (p : PolicyConfig) : List Pair := [("block_on_error", .boolean p.blockOnError)]

/-- The fields of a rule. -/
def rulePairs (r : Rule) : List Pair := [
  ("label", .text r.label),
  ("patterns", .texts r.patterns),
  ("severity", .text r.severity.keyword)]

/-- The blocks of a configuration whose root is the text given. A list of no rules is a field of the
document itself. -/
def blocks (c : Config) (root : String) : List Block :=
  (if c.rules = [] then [.pairs [("rules", .texts [])]] else [])
    ++ [.table "project" (projectPairs c.project root),
      .table "tests" (testsPairs c.tests),
      .table "environment" (environmentPairs c.environment),
      .table "policy" (policyPairs c.policy)]
    ++ c.rules.map fun r => .item "rules" (rulePairs r)

/-- The text of a configuration (`Config::to_toml`). There is none when the root is no text or the
number of lines is too large. -/
def write (c : Config) : Except Failure String :=
  match c.project.root.text? with
  | none =>
    .error (.internal "Failed to serialize config: path contains invalid UTF-8 characters")
  | some root =>
    if c.tests.failureOutputLines < Toml.integerBound then
      .ok (String.ofList (Toml.writeBlocks (c.blocks root)))
    else .error (.internal "Failed to serialize config: out-of-range value for u64 type")

end Config

end CommitGate

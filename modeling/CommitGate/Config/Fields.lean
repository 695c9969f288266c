import CommitGate.Config.Basic
import CommitGate.Toml.Value

/-!
# The fields of a configuration in a document

A section is a table with its fields by name, or an array with its fields by position; a date holds
none of them. Fields that are missing take their defaults, those of a rule have to be there. Names
that mean nothing here are passed over. A field of the wrong kind makes the whole document unusable.

Results:

* `field_of_lookup_eq_none`, `field_of_lookup_eq_some`: a field is what the document says, or else
  its default.
-/

namespace CommitGate

open Toml (Entries Value)

namespace Toml.Value

/-- A text. -/
def text? : Value → Option String
  | .text s => some s
  | _ => none

/-- A path, which is given as a text. -/
def path? (v : Value) : Option Path :=
  v.text?.map fun s : String => ⟨s⟩

/-- A truth value. -/
def boolean? : Value → Option Bool
  | .boolean b => some b
  | _ => none

/-- A number that is not negative. -/
def natural? : Value → Option Nat
  | .integer n => if 0 ≤ n then some n.toNat else none
  | _ => none

/-- An array of texts. -/
def texts? : Value → Option (List String)
  | .array items _ => items.mapM text?
  | _ => none

/-- A table or an array without contents. -/
def isEmpty : Value → Bool
  | .table _ [] => true
  | .array [] _ => true
  | _ => false

/-- The fields of a section whose fields have the given names in order. -/
def fields? (names : List String) : Value → Option Entries
  | .table _ es => some es
  | .array items _ => some (names.zip items)
  | .moment _ => some []
  | _ => none

end Toml.Value

namespace Config

/-- A field that may be missing. -/
def field {α : Type} (read : Value → Option α) (fallback : α) (name : String) (es : Entries) :
    Option α :=
  match es.lookup name with
  | none => some fallback
  | some v => read v

/-- A field that has to be there. -/
def required {α : Type} (read : Value → Option α) (name : String) (es : Entries) : Option α :=
  (es.lookup name).bind read

/-- A section that may be missing. -/
def readSection {α : Type} (names : List String) (read : Entries → Option α) (name : String)
    (es : Entries) : Option α :=
  match es.lookup name with
  | none => read []
  | some v => (v.fields? names).bind read

/-- A severity: its keyword, or a table with the keyword as its one name and nothing as its value.
-/
def severity? : Value → Option Severity
  | .text s => Severity.ofKeyword? s
  | .table _ [(k, v)] => if v.isEmpty then Severity.ofKeyword? k else none
  | _ => none

/-- The scanned files. -/
def project? (es : Entries) : Option ProjectConfig := do
  let d : ProjectConfig := {}
  some {
    root := ← field Value.path? d.root "root" es
    extensions := ← field Value.texts? d.extensions "extensions" es
    exclude := ← field Value.texts? d.exclude "exclude" es }

/-- The test gate. -/
def tests? (es : Entries) : Option TestsConfig := do
  let d : TestsConfig := {}
  some {
    enabled := ← field Value.boolean? d.enabled "enabled" es
    command := ← field Value.text? d.command "command" es
    config := ← field Value.text? d.config "config" es
    requireConfig := ← field Value.boolean? d.requireConfig "require_config" es
    prompt := ← field Value.text? d.prompt "prompt" es
    timeout := ← field (fun v => v.text?.map some) d.timeout "timeout" es
    failureOutputLines := ← field Value.natural? d.failureOutputLines "failure_output_lines" es }

/-- The required tool. -/
def environment? (es : Entries) : Option EnvironmentConfig := do
  let d : EnvironmentConfig := {}
  some {
    check := ← field Value.boolean? d.check "check" es
    tool := ← field Value.text? d.tool "tool" es
    versionArg := ← field Value.text? d.versionArg "version_arg" es
    minVersion := ← field Value.text? d.minVersion "min_version" es }

/-- The policy. -/
def policy? (es : Entries) : Option PolicyConfig := do
  let d : PolicyConfig := {}
  some { blockOnError := ← field Value.boolean? d.blockOnError "block_on_error" es }

/-- A rule; all of its fields have to be there. -/
def rule? (v : Value) : Option Rule := do
  let es ← v.fields? ["label", "patterns", "severity"]
  some {
    label := ← required Value.text? "label" es
    patterns := ← required Value.texts? "patterns" es
    severity := ← required severity? "severity" es }

/-- An array of rules. -/
def rules? : Value → Option (List Rule)
  | .array items _ => items.mapM rule?
  | _ => none

/-- The configuration that a document describes. -/
def ofEntries? (es : Entries) : Option Config := do
  some {
    project := ← readSection ["root", "extensions", "exclude"] project? "project" es
    tests := ← readSection
      ["enabled", "command", "config", "require_config", "prompt", "timeout",
        "failure_output_lines"]
      tests? "tests" es
    environment := ← readSection ["check", "tool", "version_arg", "min_version"] environment?
      "environment" es
    policy := ← readSection ["block_on_error"] policy? "policy" es
    rules := ← field rules? BuiltIn.php "rules" es }

theorem field_of_lookup_eq_none {α : Type} {read : Value → Option α} {fallback : α}
    {name : String} {es : Entries} (h : es.lookup name = none) :
    field read fallback name es = some fallback := by
  simp [field, h]

theorem field_of_lookup_eq_some {α : Type} {read : Value → Option α} {fallback : α}
    {name : String} {es : Entries} {v : Value} (h : es.lookup name = some v) :
    field read fallback name es = read v := by
  simp [field, h]

end Config

end CommitGate

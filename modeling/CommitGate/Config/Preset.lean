import CommitGate.Config.Basic

/-!
# Presets

A preset is a configuration for a common kind of project.

Results:

* `ofName?_name`: every preset is found by its name.
-/

namespace CommitGate

/-- A kind of project. -/
inductive Preset where
  | php
  | python
  | node
  | rust
deriving DecidableEq, Repr

namespace Preset

/-- All presets, in the order in which they are offered. -/
def all : List Preset := [.php, .python, .node, .rust]

/-- The name of a preset. -/
def name : Preset → String
  | .php => "php"
  | .python => "python"
  | .node => "node"
  | .rust => "rust"

/-- The preset of a name. -/
def ofName? (s : String) : Option Preset :=
  all.find? fun p => p.name = s

/-- What a preset is for. -/
def description : Preset → String
  | .php => "PHP projects (phpunit, dd() and conflict markers)"
  | .python => "Python projects (pytest, breakpoints and conflict markers)"
  | .node => "Node.js/TypeScript projects (npm test, debugger and conflict markers)"
  | .rust => "Rust projects (cargo test, dbg! and conflict markers)"

/-- The configuration of a preset. -/
def config : Preset → Config
  | .php => {}
  | .python => {
    project := { extensions := ["py"], exclude := ["venv", "__pycache__", "build", "dist"] }
    tests := { command := "pytest -c \x7bconfig\x7d", config := "pytest.ini" }
    environment := { tool := "python3", minVersion := "3.8" }
    rules := BuiltIn.python }
  | .node => {
    project := {
      extensions := ["js", "jsx", "ts", "tsx", "mjs", "cjs"]
      exclude := ["node_modules", "dist", "build", "coverage"] }
    tests := { command := "npm test", config := "package.json" }
    environment := { tool := "node", minVersion := "18" }
    rules := BuiltIn.node }
  | .rust => {
    project := { extensions := ["rs"], exclude := ["target"] }
    tests := { command := "cargo test --quiet", config := "Cargo.toml" }
    environment := { tool := "cargo", minVersion := "1.70" }
    rules := BuiltIn.rust }

/-- The description of the preset of a name. -/
def describe (s : String) : String :=
  (ofName? s).elim "Unknown preset" description

theorem ofName?_name (p : Preset) : ofName? p.name = some p := by
  cases p <;> decide

end Preset

/-- The configuration of the preset of a name; the default for names that are none
(`Config::for_preset`). -/
def Config.forPreset (s : String) : Config :=
  (Preset.ofName? s).elim {} Preset.config

end CommitGate

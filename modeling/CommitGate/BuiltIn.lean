import CommitGate.Rule

/-!
# Built-in rules

The rules that are checked when the configuration has none of its own: leftovers of debugging for
each stack, and conflict markers for all of them.

Results:

* `conflict_mem`: every built-in list looks for conflict markers.
-/

namespace CommitGate.BuiltIn

/-- Markers of a merge that was not resolved (`merge_conflict`). -/
def conflict : Rule := ⟨"git conflict", ["<<<<<<<"], .error⟩

/-- The dump-and-die helper of PHP frameworks (`php_rules`). -/
def php : List Rule := [⟨"dd()", [" dd("], .warning⟩, conflict]

/-- The debug macro of Rust (`rust_rules`). -/
def rust : List Rule := [⟨"dbg!()", ["dbg!("], .warning⟩, conflict]

/-- The debugger statement of JavaScript (`node_rules`). -/
def node : List Rule := [⟨"debugger", ["debugger;"], .warning⟩, conflict]

/-- Breakpoints of Python (`python_rules`). -/
def python : List Rule := [⟨"breakpoint()", ["breakpoint()", "import pdb"], .warning⟩, conflict]

theorem conflict_mem : ∀ rules ∈ [php, rust, node, python], conflict ∈ rules := by decide

end CommitGate.BuiltIn

/-!
# Emissions

What the program says on its output is a sequence of emissions: some lines at a level, with or
without a newline after the last one. The text of an emission depends on whether colours are on; the
plain level has no colour.

Results:

* `render_plain`: the plain level looks the same with colours on and off.
-/

namespace CommitGate

/-- How an emission is styled (`Level`). -/
inductive Level where
  | plain
  | warning
  | error
  | success
deriving DecidableEq, Repr, Inhabited

/-- The escape sequence that opens the style of a level (`Level::style`). -/
def Level.opening? : Level → Option String
  | .plain => none
  | .warning => some "\x1b[33m\x1b[1m"
  | .error => some "\x1b[31m\x1b[1m"
  | .success => some "\x1b[32m\x1b[1m"

/-- The escape sequence that closes every style. -/
def styleReset : String := "\x1b[0m"

/-- Lines at a level. -/
structure Emission where
  lines : List String
  level : Level
  /-- A newline follows the last line. -/
  ended : Bool
deriving DecidableEq, Repr

namespace Emission

/-- One line (`Reporter::line`). -/
def line (text : String) (level : Level) : Emission :=
  ⟨[text], level, true⟩

/-- A text that the output goes on after (`Reporter::inline`). -/
def inline (text : String) : Emission :=
  ⟨[text], .plain, false⟩

/-- The lines with newlines between them. -/
def body (e : Emission) : String :=
  "\n".intercalate e.lines

/-- The text of an emission: the style opens before the first line and closes before the last
newline (`Reporter::emit`). -/
def render (colors : Bool) (e : Emission) : String :=
  let styled :=
    match colors, e.level.opening? with
    | true, some opening => opening ++ e.body ++ styleReset
    | _, _ => e.body
  if e.ended then styled ++ "\n" else styled

/-- The text of a sequence of emissions. -/
def renderAll (colors : Bool) (es : List Emission) : String :=
  String.join (es.map (render colors))

theorem render_plain (e : Emission) (h : e.level = .plain) (colors : Bool) :
    e.render colors = e.render false := by
  cases colors <;> simp [render, h, Level.opening?]

end Emission

end CommitGate

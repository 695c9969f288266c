import CommitGate.Text.Blank
import CommitGate.Text.DecimalDigit
import CommitGate.Text.Search

/-!
# Versions

A version has three numeric components. It is written `major.minor.patch`, read from a configured
text of one to three components, and looked for in the output of a tool, where the first `N.N` or
`N.N.N` counts.

Results:

* `le_total`, `le_antisymm`: the order of components from left to right is total.
-/

namespace CommitGate

/-- A version: missing components are zero (`Version`). -/
structure Version where
  major : Nat
  minor : Nat
  patch : Nat
deriving DecidableEq, Repr, Inhabited

namespace Version

/-- No component reaches this bound. -/
def bound : Nat := Nat.pow 2 64

/-- The components are compared from left to right. -/
protected def le (v w : Version) : Prop :=
  v.major < w.major ∨
    v.major = w.major ∧ (v.minor < w.minor ∨ v.minor = w.minor ∧ v.patch ≤ w.patch)

instance : LE Version := ⟨Version.le⟩

instance (v w : Version) : Decidable (v ≤ w) :=
  inferInstanceAs (Decidable (_ ∨ _))

theorem le_def {v w : Version} :
    v ≤ w ↔ v.major < w.major ∨
      v.major = w.major ∧ (v.minor < w.minor ∨ v.minor = w.minor ∧ v.patch ≤ w.patch) :=
  Iff.rfl

theorem le_total (v w : Version) : v ≤ w ∨ w ≤ v := by
  simp only [le_def]; omega

theorem le_antisymm {v w : Version} (h : v ≤ w) (h' : w ≤ v) : v = w := by
  cases v; cases w
  simp only [le_def] at h h'
  simp only [mk.injEq]; omega

/-! ## Written form -/

/-- The three components with points between them. -/
def format (v : Version) : List Char :=
  Text.digitsOfNat v.major ++ '.' :: Text.digitsOfNat v.minor ++ '.' :: Text.digitsOfNat v.patch

/-- The three components with points between them, as text (`Display for Version`). -/
def text (v : Version) : String :=
  String.ofList v.format

/-! ## Configured versions -/

/-- Why a text is not a version. -/
inductive Fault where
  | major
  | minor
  | patch
  /-- Components follow the patch level. -/
  | tooMany
deriving DecidableEq, Repr

/-- One component: ASCII digits, with a plus sign allowed in front. -/
def component? (s : List Char) : Option Nat :=
  Text.natBelow? bound s

/-- Reads the components of a text from left to right. -/
def ofComponents : List (List Char) → Except Fault Version
  | [] => .error .major
  | a :: r => do
    let major ← (component? a).elim (.error .major) .ok
    let minor ← r.head?.elim (.ok 0) fun b => (component? b).elim (.error .minor) .ok
    let patch ← r[1]?.elim (.ok 0) fun c => (component? c).elim (.error .patch) .ok
    if r.length ≤ 2 then .ok ⟨major, minor, patch⟩ else .error .tooMany

/-- Reads a configured version; blank characters around it do not count (`FromStr for Version`). -/
def parse (s : String) : Except Fault Version :=
  ofComponents (Text.splitOn ['.'] (Text.trimmed s.toList))

/-- What is wrong with the text `s`. -/
def Fault.message (s : String) : Fault → String
  | .major => s!"Invalid major version component in '{s}'"
  | .minor => s!"Invalid minor version component in '{s}'"
  | .patch => s!"Invalid patch version component in '{s}'"
  | .tooMany => s!"Too many version components in '{s}'"

/-! ## Versions in the output of a tool -/

/-- The digits at the front of a text, and what follows them. -/
def digitRun (s : List Char) : List Char × List Char :=
  (s.takeWhile Text.isDecimalDigit, s.dropWhile Text.isDecimalDigit)

/-- The digits after a point at the front of a text, and what follows them. -/
def pointRun? : List Char → Option (List Char × List Char)
  | '.' :: c :: r => if Text.isDecimalDigit c then some (digitRun (c :: r)) else none
  | _ => none

/-- The digits of the first `N.N` or `N.N.N` in a text; the third run may be missing. -/
def findRuns? : List Char → Option (List Char × List Char × Option (List Char))
  | [] => none
  | c :: r =>
    match if Text.isDecimalDigit c then pointRun? (digitRun (c :: r)).2 else none with
    | some (minor, rest) => some ((digitRun (c :: r)).1, minor, (pointRun? rest).map (·.1))
    | none => findRuns? r

/-- The digits of one run as a number: only ASCII digits have a value. -/
def runValue? (s : List Char) : Option Nat :=
  if s.all Char.isDigit then Text.natBelow? bound s else none

/-- The first version in a text. When its digits have no value there is none, and no later one is
tried (`Version::find`). -/
def find? (s : List Char) : Option Version := do
  let (a, b, c) ← findRuns? s
  some ⟨← runValue? a, ← runValue? b, ← c.elim (some 0) runValue?⟩

end Version

end CommitGate

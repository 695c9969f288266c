import CommitGate.Text.Raw
import CommitGate.Text.Search

/-!
# Paths

A path is a spelling. Two spellings may mean the same sequence of components: repeated and trailing
slashes and inner `.` do not count. Paths are compared by their components, while joining and
shortening keep the spelling. A spelling is made of octets, of which only the slash and the point
have a meaning.

Results:

* `join_absolute`: joining an absolute path replaces.
-/

namespace CommitGate

open Text (Octets)

/-- A path as it is spelled. -/
@[ext]
structure Path where
  spelling : RawText
deriving DecidableEq, Repr, Inhabited

/-- A component of a path. -/
inductive Component where
  /-- The slash at the start. -/
  | root
  /-- A `.` at the start. -/
  | current
  /-- A `..`. -/
  | parent
  | name (s : RawText)
deriving DecidableEq, Repr

namespace Component

/-- The place of the kind of a component in the order. -/
def rank : Component → Nat
  | .root => 0
  | .current => 1
  | .parent => 2
  | .name _ => 3

/-- The octets of a name; none for the other kinds. -/
def label : Component → Octets
  | .name s => s.octets
  | _ => []

/-- By kind first, and two names by their octets. -/
def order (a b : Component) : Ordering :=
  (compare a.rank b.rank).then (compare a.label b.label)

end Component

namespace Path

/-- The octet of a slash. -/
def slash : UInt8 := 0x2F

/-- The octet of a point. -/
def point : UInt8 := 0x2E

/-- The pieces between slashes. -/
def slashPieces (s : Octets) : List Octets :=
  Text.splitOn [slash] s

/-- The component that a piece stands for, other than at the start: empty pieces and `.` are
none. -/
def innerComponent? (s : Octets) : Option Component :=
  if s = [] ∨ s = [point] then none
  else if s = [point, point] then some .parent
  else some (.name ⟨s⟩)

/-- The components of a spelling. -/
def componentsOf (s : Octets) : List Component :=
  let inner := (slashPieces s).filterMap innerComponent?
  if s.head? = some slash then .root :: inner
  else if (slashPieces s).head? = some [point] then .current :: inner
  else inner

/-- The components of a path. -/
def components (p : Path) : List Component :=
  componentsOf p.spelling.octets

/-- The path starts at the root. -/
def isAbsolute (p : Path) : Bool :=
  p.spelling.octets.head? = some slash

/-- Component by component, a shorter path before its extensions. -/
def order (p q : Path) : Ordering :=
  List.compareLex Component.order p.components q.components

/-- The same components, whatever the spelling. -/
def same (p q : Path) : Bool :=
  p.components = q.components

/-- `q` as seen from `p`. -/
def join (p q : Path) : Path :=
  if q.isAbsolute then q
  else
    let s := p.spelling.octets
    if s.getLast? = none ∨ s.getLast? = some slash then ⟨⟨s ++ q.spelling.octets⟩⟩
    else ⟨⟨s ++ slash :: q.spelling.octets⟩⟩

/-- The entry called `s` in the directory `p`. -/
def child (p : Path) (s : RawText) : Path :=
  p.join ⟨s⟩

/-- The name at the end, when the path ends in one. -/
def fileName? (p : Path) : Option RawText :=
  match p.components.getLast? with
  | some (.name s) => some s
  | _ => none

/-- The pieces without those at the end that are no component. -/
def dropIdle (ps : List Octets) : List Octets :=
  (ps.reverse.dropWhile fun s => s = [] ∨ s = [point]).reverse

/-- The spelling up to the last component, when there is one besides a root. -/
def parent? (p : Path) : Option Path :=
  let s := p.spelling.octets
  let (start, body) :=
    if s.head? = some slash then ([slash], s.tail)
    else if (slashPieces s).head? = some [point] then ([point], s.tail)
    else ([], s)
  match dropIdle (slashPieces body) with
  | [] => if start = [point] then some ⟨⟨[]⟩⟩ else none
  | ps => some ⟨⟨start ++ [slash].intercalate (dropIdle ps.dropLast)⟩⟩

/-- The path and what is above it, at most `fuel` steps up. -/
def ancestorsUpTo : Nat → Path → List Path
  | 0, p => [p]
  | fuel + 1, p => p :: (p.parent?.elim [] (ancestorsUpTo fuel))

/-- The path, its parent, and so on. Each step shortens the spelling, so its length bounds their
number. -/
def ancestors (p : Path) : List Path :=
  ancestorsUpTo p.spelling.octets.length p

/-- The path as it is shown. -/
def shown (p : Path) : String :=
  p.spelling.shown

/-- The path as a text, when it is one. -/
def text? (p : Path) : Option String :=
  p.spelling.text?

/-- The path that a program spells that knows no characters. -/
def ofWide (s : String) : Path :=
  ⟨.ofWide s⟩

/-- The path as such a program sees it. -/
def wide (p : Path) : String :=
  p.spelling.wide

theorem ofWide_wide (p : Path) : ofWide p.wide = p :=
  congrArg Path.mk p.spelling.ofWide_wide

theorem join_absolute {p q : Path} (h : q.isAbsolute = true) : p.join q = q := by
  simp [join, h]

end Path

end CommitGate

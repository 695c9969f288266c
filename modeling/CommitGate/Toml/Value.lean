/-!
# TOML values

A document is a table: names with values, in the order in which they came. How a table came to be
decides what may still be added to it, so each table keeps its origin.

Results:

* `lookup_replace`: after a replacement the name stands for the new value, other names for what they
  did.
-/

namespace CommitGate.Toml

/-- How a table came to be. -/
inductive Origin where
  /-- Written between braces, and complete. -/
  | inline
  /-- Opened by a header of its own. -/
  | header
  /-- On the way to the table of a header. -/
  | implied
  /-- On the way of a key with points. -/
  | dotted
deriving DecidableEq, Repr

/-- A value. -/
inductive Value where
  | text (s : String)
  | integer (n : Int)
  | float (spelling : String)
  | boolean (b : Bool)
  | moment (spelling : String)
  /-- An array; one made of headers takes further tables. -/
  | array (items : List Value) (extensible : Bool)
  | table (origin : Origin) (entries : List (String × Value))
deriving Repr, Inhabited

/-- The names and values of a table. -/
abbrev Entries := List (String × Value)

namespace Entries

/-- The entries with the name `k`, which is among them, standing for `v`. -/
def replace (k : String) (v : Value) : Entries → Entries
  | [] => []
  | e :: es => if e.1 = k then (k, v) :: es else e :: replace k v es

/-- The entries with one more name. -/
def add (k : String) (v : Value) (es : Entries) : Entries :=
  es ++ [(k, v)]

/-! ## Headers -/

/-- Changes the table at the path of a header. Tables on the way are made when they are missing, and
of an array of tables the last one is meant. -/
def atHeader (f : Entries → Option Entries) : List String → Entries → Option Entries
  | [], es => f es
  | k :: r, es =>
    match es.lookup k with
    | none => do some (es.add k (.table .implied (← atHeader f r [])))
    | some (.table .inline _) => none
    | some (.table origin inner) => do some (es.replace k (.table origin (← atHeader f r inner)))
    | some (.array items true) =>
      match items.getLast? with
      | some (.table origin inner) => do
        some (es.replace k
          (.array (items.dropLast ++ [.table origin (← atHeader f r inner)]) true))
      | _ => none
    | some _ => none

/-- Opens the table `k`, which may stand there only as implied by other headers. -/
def openTable (k : String) (es : Entries) : Option Entries :=
  match es.lookup k with
  | none => some (es.add k (.table .header []))
  | some (.table .implied inner) => some (es.replace k (.table .header inner))
  | some _ => none

/-- Opens one more table of the array `k`. -/
def openItem (k : String) (es : Entries) : Option Entries :=
  match es.lookup k with
  | none => some (es.add k (.array [.table .header []] true))
  | some (.array items true) => some (es.replace k (.array (items ++ [.table .header []]) true))
  | some _ => none

/-! ## Keys -/

/-- Gives the key of a path a value. A key with points goes through tables that such keys or headers
imply, and ends in one that such keys have made; `made` tells that of the table at hand. -/
def assignFrom (v : Value) (made : Bool) : List String → Entries → Option Entries
  | [], _ => none
  | [k], es => if made ∧ es.lookup k = none then some (es.add k v) else none
  | k :: r, es =>
    match es.lookup k with
    | none => do some (es.add k (.table .dotted (← assignFrom v true r [])))
    | some (.table .dotted inner) => do
      some (es.replace k (.table .dotted (← assignFrom v true r inner)))
    | some (.table .implied inner) => do
      some (es.replace k (.table .implied (← assignFrom v false r inner)))
    | some (.array items true) =>
      match items.getLast? with
      | some (.table origin inner) => do
        some (es.replace k
          (.array (items.dropLast ++ [.table origin (← assignFrom v false r inner)]) true))
      | _ => none
    | some _ => none

/-- Gives a key, with or without points, a value in the table it is written in. -/
def assign (path : List String) (v : Value) (es : Entries) : Option Entries :=
  assignFrom v true path es

theorem lookup_cons_eq (e : String × Value) (es : Entries) (x : String) :
    List.lookup x (e :: es) = if x = e.1 then some e.2 else es.lookup x := by
  obtain ⟨n, w⟩ := e
  rw [List.lookup_cons]
  by_cases h : x = n
  · simp [h]
  · simp [h, show (x == n) = false by simpa using h]

theorem lookup_replace (k : String) (v : Value) (es : Entries) (x : String) :
    (es.replace k v).lookup x = if x = k ∧ (es.lookup k).isSome then some v else es.lookup x := by
  induction es with
  | nil => simp [replace]
  | cons e es ih =>
    rw [replace, lookup_cons_eq]
    rw [lookup_cons_eq e es x]
    by_cases h : e.1 = k
    · rw [if_pos h, lookup_cons_eq]
      grind
    · rw [if_neg h, lookup_cons_eq, ih]
      grind

end Entries

end CommitGate.Toml

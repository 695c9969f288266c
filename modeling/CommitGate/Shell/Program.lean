import CommitGate.Shell.State

/-!
# Programs

A program is a function from arguments and a state to a state and a status. What programs have in
common stands here: how files are read one after the other, how faults are worded, how options are
told from names.
-/

namespace CommitGate.Shell

open Text (Octets)

/-- A program or command that is given arguments. -/
abbrev Program := List String → State → State × Nat

/-- The wording of a fault without its number. -/
def reason (f : Fault) : String :=
  String.ofList (((Text.splitOn " (os error".toList f.text.toList).head?).getD [])

/-! ## Reading -/

/-- The place of a device. -/
def devicePlace (name : RawText) : List RawText := ["dev", name]

/-- How much of an endless file is read. -/
def readLimit : Nat := 1048576

/-- The content of a file, of the standard input for a dash, or why it cannot be read. -/
def contentOf (s : State) (name : String) : Except Fault Octets × State :=
  if name = "-" then
    let (o, s) := s.readAll 0 readLimit
    (.ok o, s)
  else if (s.host.canonical (.ofWide name)).toOption = some (devicePlace "zero") then
    (.ok (List.replicate readLimit 0), s)
  else (s.host.readFile (.ofWide name), s)

/-- Applies `f` to the content of each file, or of the standard input when there is none; files that
cannot be read are reported under the name of the program. -/
def onFiles (program : String) (f : Octets → Octets) : List String → State → State × Nat
  | [], s => (s, 0)
  | name :: names, s =>
    let (s, status) := match contentOf s name with
      | (.ok o, s) => (s.write 1 (f o), 0)
      | (.error e, s) => (s.writeText 2 (program ++ ": " ++ name ++ ": " ++ reason e ++ "\n"), 1)
    let (s, more) := onFiles program f names s
    (s, max status more)

/-- The standard input for an empty list of files. -/
def orInput (names : List String) : List String :=
  if names = [] then ["-"] else names

/-- The arguments without options, and the letters of the options. -/
def options (args : List String) : List Char × List String :=
  let isOption := fun (a : String) => a.toList.head? = some '-' ∧ a ≠ "-"
  ((args.filter isOption).flatMap fun a => a.toList.tail, args.filter fun a => !isOption a)

end CommitGate.Shell

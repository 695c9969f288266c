import CommitGate.Host
import CommitGate.Text.Blank
import CommitGate.Text.DecimalDigit

/-!
# Tests of the shell

The command `test` judges its arguments: texts, numbers and files. What counts is how many arguments
there are.
-/

namespace CommitGate.Shell

/-- The whole number that an argument spells. -/
def wholeNumber? (s : String) : Option Int :=
  match Text.stripped s.toList with
  | '-' :: r => if r ≠ [] ∧ r.all Char.isDigit then some (-(Text.natOfDigits 10 r : Int)) else none
  | '+' :: r => if r ≠ [] ∧ r.all Char.isDigit then some (Text.natOfDigits 10 r) else none
  | r => if r ≠ [] ∧ r.all Char.isDigit then some (Text.natOfDigits 10 r) else none

/-- Judges one argument by an operator. -/
def judgeOne? (h : Host) (operator arg : String) : Option Bool :=
  let p : Path := .ofWide arg
  match operator with
  | "-n" => some (arg ≠ "")
  | "-z" => some (arg = "")
  | "-e" | "-r" | "-w" => some (h.pathExists p)
  | "-f" => some (h.isFile p)
  | "-d" => some (h.isDirectory p)
  | "-x" => some (h.isDirectory p || h.isProgram p)
  | "-s" =>
    some (match h.entry p with | .ok (.file _ c _) => c ≠ [] | .ok (.dir _) => true | _ => false)
  | "-L" | "-h" => some (match h.ownEntry p with | .ok (.link _ _) => true | _ => false)
  | "-t" | "-p" | "-S" | "-b" | "-c" | "-u" | "-g" | "-k" => some false
  | _ => none

/-- Judges two arguments by an operator between them; the text is an argument that should be a
number. -/
def judgeTwo? (a operator b : String) : Option (Except String Bool) :=
  let numbers := fun (f : Int → Int → Bool) =>
    match wholeNumber? a, wholeNumber? b with
    | some m, some n => Except.ok (f m n)
    | none, _ => .error a
    | _, none => .error b
  match operator with
  | "=" | "==" => some (.ok (a = b))
  | "!=" => some (.ok (a ≠ b))
  | "<" => some (.ok (a < b))
  | ">" => some (.ok (b < a))
  | "-eq" => some (numbers fun m n => m = n)
  | "-ne" => some (numbers fun m n => m ≠ n)
  | "-lt" => some (numbers fun m n => m < n)
  | "-le" => some (numbers fun m n => m ≤ n)
  | "-gt" => some (numbers fun m n => n < m)
  | "-ge" => some (numbers fun m n => n ≤ m)
  | _ => none

/-- Judges arguments without `-a` and `-o`. -/
def judgePlain (h : Host) : List String → Except String Bool
  | [] => .ok false
  | [a] => .ok (a ≠ "")
  | [a, b] =>
    if a = "!" then .ok (b = "")
    else (judgeOne? h a b).elim (.error (a ++ ": unexpected operator")) .ok
  | [a, o, b] =>
    match judgeTwo? a o b with
    | some (.ok t) => .ok t
    | some (.error n) => .error ("Illegal number: " ++ n)
    | none =>
      if a = "!" then (judgePlain h [o, b]).map not
      else if a = "(" ∧ b = ")" then .ok (o ≠ "")
      else .error (o ++ ": unexpected operator")
  | "!" :: r => (judgePlain h r).map not
  | a :: _ => .error (a ++ ": unexpected operator")

/-- The arguments before the first separator, and those after it if there is one. -/
def splitArguments (separator : String) : List String → List String × Option (List String)
  | [] => ([], none)
  | a :: r =>
    if a = separator then ([], some r)
    else
      let (front, rest) := splitArguments separator r
      (a :: front, rest)

/-- Judges arguments with operators between the tests; `-a` binds more strongly than `-o`. -/
def judgeJoined (h : Host) : Nat → List String → Except String Bool
  | 0, args => judgePlain h args
  | fuel + 1, args =>
    match splitArguments "-o" args with
    | (front, some rest) => do .ok ((← judgeJoined h fuel front) || (← judgeJoined h fuel rest))
    | (_, none) =>
      match splitArguments "-a" args with
      | (front, some rest) => do .ok ((← judgeJoined h fuel front) && (← judgeJoined h fuel rest))
      | (_, none) => judgePlain h args

/-- Judges arguments. -/
def judge (h : Host) (args : List String) : Except String Bool :=
  if args.length ≤ 4 then
    match judgePlain h args with
    | .ok t => .ok t
    | .error e => if args.length = 3 then .error e else judgeJoined h args.length args
  else judgeJoined h args.length args

end CommitGate.Shell

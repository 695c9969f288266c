import CommitGate.Shell.Arithmetic
import CommitGate.Shell.Program
import CommitGate.Shell.Test
import CommitGate.Text.Lines

/-!
# Programs that read

These programs read files, or the standard input when they are given none, and write some form of
it. Octets are compared as numbers.
-/

namespace CommitGate.Shell

open Text (Octets)

/-- Writes files one after the other. -/
def cat : Program := fun args s =>
  onFiles "cat" id (orInput (args.filter fun a => a = "-" ∨ a.toList.head? ≠ some '-')) s

/-- The octets up to the `n`-th newline. -/
def firstLines : Nat → Octets → Octets
  | 0, _ => []
  | _, [] => []
  | n + 1, b :: r => b :: firstLines (if b = 10 then n else n + 1) r

/-- The count that options ask for and the files: `-n N`, `-nN`, `-N`, or `-c N` for octets. -/
def countOption (fallback : Nat) : List String → Bool × Nat × List String
  | "-n" :: n :: r => (false, n.toNat?.getD fallback, r)
  | "-c" :: n :: r => (true, n.toNat?.getD fallback, r)
  | a :: r =>
    match a.toList with
    | '-' :: 'n' :: ds => (false, Text.natOfDigits 10 ds, r)
    | '-' :: 'c' :: ds => (true, Text.natOfDigits 10 ds, r)
    | '-' :: d :: ds =>
      if d.isDigit then (false, Text.natOfDigits 10 (d :: ds), r) else (false, fallback, a :: r)
    | _ => (false, fallback, a :: r)
  | [] => (false, fallback, [])

/-- Writes the beginnings of files. -/
def head : Program := fun args s =>
  let (octets, n, names) := countOption 10 args
  onFiles "head" (fun o => if octets then o.take n else firstLines n o) (orInput names) s

/-- Writes the ends of files. -/
def tail : Program := fun args s =>
  let (octets, n, names) := countOption 10 args
  onFiles "tail" (fun o =>
    if octets then o.drop (o.length - n)
    else
      let ended := o.getLast? = some 10
      let lines := o.count 10 + if ended then 0 else 1
      o.drop (firstLines (lines - n) o).length) (orInput names) s

/-- Counts newlines, words and octets. -/
def wc : Program := fun args s =>
  let count := fun (o : Octets) =>
    if "-l" ∈ args then o.count 10
    else if "-w" ∈ args then
      (o.foldl (fun (n, inside) b =>
        if b = 32 ∨ (9 ≤ b ∧ b ≤ 13) then (n, false)
        else (if inside then n else n + 1, true)) ((0 : Nat), false)).1
    else o.length
  let names := args.filter fun a => a.toList.head? ≠ some '-'
  match names with
  | [] =>
    let (o, s) := s.readAll 0 readLimit
    (s.writeText 1 (toString (count o) ++ "\n"), 0)
  | names => names.foldl (fun (s, status) name =>
      match contentOf s name with
      | (.ok o, s) => (s.writeText 1 (toString (count o) ++ " " ++ name ++ "\n"), status)
      | (.error e, s) => (s.writeText 2 ("wc: " ++ name ++ ": " ++ reason e ++ "\n"), 1)) (s, 0)

/-- Writes the whole numbers between two ends. -/
def seq : Program := fun args s =>
  let numbers := args.filterMap wholeNumber?
  let write := fun (first step last : Int) =>
    let count :=
      if step = 0 ∨ (last - first) * step < 0 then 0 else ((last - first) / step).toNat + 1
    (s.writeText 1 (String.join ((List.range (min count readLimit)).map fun (i : Nat) =>
      toString (first + i * step) ++ "\n")), 0)
  match numbers with
  | [last] => write 1 1 last
  | [first, last] => write first 1 last
  | [first, step, last] => write first step last
  | _ => (s.writeText 2 "seq: missing operand\n", 1)

/-- Writes a line again and again, up to a limit. -/
def yes : Program := fun args s =>
  let line := Text.narrow ((if args = [] then "y" else " ".intercalate args).toList ++ ['\n'])
  (s.write 1 (List.replicate (readLimit / line.length) line).flatten, 0)

/-- The lines of octets, each with its newline; a last line gets one. -/
def endedLines (o : Octets) : List Octets :=
  (Text.pieces 10 o).map (· ++ [10])

/-- One list of octets comes before another or equals it. -/
def octetsLe : Octets → Octets → Bool
  | [], _ => true
  | _ :: _, [] => false
  | a :: r, b :: t => a < b || (a == b && octetsLe r t)

/-- Writes the lines of its input in order. -/
def sort : Program := fun args s =>
  let (letters, names) := options args
  onFiles "sort" (fun o =>
    let sorted := (endedLines o).mergeSort fun a b =>
      octetsLe (a.take (a.length - 1)) (b.take (b.length - 1))
    (if 'r' ∈ letters then sorted.reverse
      else if 'u' ∈ letters then sorted.eraseReps else sorted).flatten)
    (orInput names) s

/-- Writes lines that are the same as the one before only once. -/
def uniq : Program := fun args s =>
  onFiles "uniq" (fun o => (endedLines o).eraseReps.flatten) (orInput (options args).2) s

/-- The characters that a set for `tr` stands for. -/
def setOf : List Char → List Char
  | a :: '-' :: b :: r =>
    ((List.range (b.toNat + 1 - a.toNat)).map fun i => Char.ofNat (a.toNat + i)) ++ setOf r
  | '\\' :: 'n' :: r => '\n' :: setOf r
  | '\\' :: 'r' :: r => '\r' :: setOf r
  | '\\' :: 't' :: r => '\t' :: setOf r
  | '\\' :: '0' :: r => '\x00' :: setOf r
  | '\\' :: c :: r => c :: setOf r
  | c :: r => c :: setOf r
  | [] => []

/-- Replaces the octets of one set by those of another, whose last one is used again, or drops them.
-/
def tr : Program := fun args s =>
  let (letters, names) := options args
  let octets := fun (set : String) => Text.narrow (setOf set.toList)
  let onInput := fun (f : Octets → Octets) => onFiles "tr" f ["-"] s
  match names with
  | [set] =>
    if 'd' ∈ letters then onInput fun o => o.filter fun b => b ∉ octets set
    else (s.writeText 2 ("tr: missing operand after '" ++ set ++ "'\n"), 1)
  | [source, target] =>
    onInput fun o => o.map fun b =>
      match (octets source).idxOf? b with
      | some i => ((octets target)[i]? <|> (octets target).getLast?).getD b
      | none => b
  | _ => (s.writeText 2 "tr: missing operand\n", 1)

end CommitGate.Shell

import CommitGate.Text.DecimalDigit
import CommitGate.Text.Utf8

/-!
# Printing in the shell

The commands `echo` and `printf` turn their arguments into octets. A backslash begins an escape;
octal escapes make octets that need not be text.
-/

namespace CommitGate.Shell

open Text (Octets)

/-- The octet of a letter after a backslash. -/
def escapedOctet? : Char → Option UInt8
  | 'a' => some 7
  | 'b' => some 8
  | 'f' => some 12
  | 'n' => some 10
  | 'r' => some 13
  | 't' => some 9
  | 'v' => some 11
  | '\\' => some 92
  | _ => none

/-- A digit below eight. -/
def isOctal (c : Char) : Bool :=
  '0' ≤ c && c ≤ '7'

/-- The octet of an octal number. -/
def octalOctet (ds : List Char) : UInt8 :=
  (Text.natOfDigits 8 ds).toUInt8

/-- The octets of a text with escapes, and whether an escape ended all output. Octal escapes have up
to three digits, after a zero when `zero` is set. -/
def unescape (zero : Bool) : Nat → List Char → Octets × Bool
  | 0, _ => ([], false)
  | _, [] => ([], false)
  | fuel + 1, '\\' :: c :: r =>
    let go := fun (o : Octets) (rest : List Char) =>
      let (os, stop) := unescape zero fuel rest
      (o ++ os, stop)
    if c = 'c' then ([], true)
    else
      match escapedOctet? c with
      | some b => go [b] r
      | none =>
        if zero ∧ c = '0' then
          let ds := (r.take 3).takeWhile isOctal
          go [octalOctet ds] (r.drop ds.length)
        else if !zero ∧ isOctal c then
          let ds := ((c :: r).take 3).takeWhile isOctal
          go [octalOctet ds] ((c :: r).drop ds.length)
        else go (Text.narrow ['\\', c]) r
  | fuel + 1, c :: r =>
    let (os, stop) := unescape zero fuel r
    (Text.narrow [c] ++ os, stop)

/-- What `echo` writes. -/
def echo (args : List String) : Octets :=
  let (ended, words) := match args with
    | "-n" :: r => (false, r)
    | ws => (true, ws)
  let text := (" ".intercalate words).toList
  let (os, stop) := unescape true (text.length + 1) text
  if ended ∧ !stop then os ++ [10] else os

/-- A directive of a format. -/
inductive Directive where
  | octets (o : Octets)
  /-- A conversion: aligned to the left, padded with zeros, its width, its precision and its letter.
  -/
  | convert (left zeros : Bool) (width : Nat) (precision : Option Nat) (letter : Char)
  | stop
deriving DecidableEq, Repr

/-- The directives of a format. -/
def directives : Nat → List Char → List Directive
  | 0, _ => []
  | _, [] => []
  | fuel + 1, '%' :: '%' :: r => .octets [37] :: directives fuel r
  | fuel + 1, '%' :: r =>
    let flags := r.takeWhile (· ∈ ['-', '0', '+', ' ', '#'])
    let r := r.dropWhile (· ∈ ['-', '0', '+', ' ', '#'])
    let width := r.takeWhile Char.isDigit
    let r := r.dropWhile Char.isDigit
    let (precision, r) := match r with
      | '.' :: r =>
        (some (Text.natOfDigits 10 (r.takeWhile Char.isDigit)), r.dropWhile Char.isDigit)
      | r => (none, r)
    match r with
    | c :: r =>
      .convert ('-' ∈ flags) ('0' ∈ flags) (Text.natOfDigits 10 width) precision c
        :: directives fuel r
    | [] => [.octets [37]]
  | fuel + 1, '\\' :: c :: r =>
    if c = 'c' then [.stop]
    else
      match escapedOctet? c with
      | some b => .octets [b] :: directives fuel r
      | none =>
        if isOctal c then
          let ds := ((c :: r).take 3).takeWhile isOctal
          .octets [octalOctet ds] :: directives fuel ((c :: r).drop ds.length)
        else .octets (Text.narrow ['\\', c]) :: directives fuel r
  | fuel + 1, c :: r => .octets (Text.narrow [c]) :: directives fuel r

/-- The number that an argument spells; a character after a quote stands for its code point. -/
def printedNumber? (s : List Char) : Option Int :=
  match s with
  | [] => some 0
  | '\'' :: c :: _ | '"' :: c :: _ => some c.toNat
  | '-' :: r => if r ≠ [] ∧ r.all Char.isDigit then some (-(Text.natOfDigits 10 r : Int)) else none
  | r => if r.all Char.isDigit then some (Text.natOfDigits 10 r) else none

/-- The octets filled up to a width. -/
def padded (left zeros : Bool) (width : Nat) (o : Octets) : Octets :=
  let fill := width - o.length
  if left then o ++ List.replicate fill 32
  else if zeros then List.replicate fill 48 ++ o
  else List.replicate fill 32 ++ o

/-- What a conversion writes for an argument, whether it ends all output, and whether the argument
is no number. -/
def convert (left zeros : Bool) (width : Nat) (precision : Option Nat) (letter : Char)
    (arg : String) : Octets × Bool × Bool :=
  let cs := arg.toList
  let text := fun (s : List Char) => padded left false width (Text.narrow s)
  let number := fun (f : Int → List Char) =>
    match printedNumber? cs with
    | some n => (padded left zeros width (Text.narrow (f n)), false, false)
    | none => (padded left zeros width (Text.narrow (f 0)), false, true)
  match letter with
  | 's' => (text (precision.elim cs fun p => cs.take p), false, false)
  | 'c' => (text (cs.take 1), false, false)
  | 'b' =>
    let (o, stop) := unescape true (cs.length + 1) cs
    (padded left false width o, stop, false)
  | 'x' => number fun n => Nat.toDigits 16 n.toNat
  | 'X' => number fun n => (Nat.toDigits 16 n.toNat).map Char.toUpper
  | 'o' => number fun n => Nat.toDigits 8 n.toNat
  | _ => number fun n => (toString n).toList

/-- Carries out the directives of a format once: the octets, the arguments left, whether all output
has ended, and the arguments that are no numbers. -/
def printOnce : List Directive → List String → Octets × List String × Bool × List String
  | [], args => ([], args, false, [])
  | .octets o :: ds, args =>
    let (os, left, stop, bad) := printOnce ds args
    (o ++ os, left, stop, bad)
  | .stop :: _, _ => ([], [], true, [])
  | .convert left zeros width precision letter :: ds, args =>
    let arg := args.head?.getD ""
    let (o, ends, wrong) := convert left zeros width precision letter arg
    let mine := if wrong then [arg] else []
    if ends then (o, [], true, mine)
    else
      let (os, rest, stop, bad) := printOnce ds args.tail
      (o ++ os, rest, stop, mine ++ bad)

/-- Carries out a format as often as there are arguments for. -/
def printAll (ds : List Directive) : Nat → List String → Octets × List String
  | 0, _ => ([], [])
  | fuel + 1, args =>
    let (os, left, stop, bad) := printOnce ds args
    if stop ∨ left = [] ∨ left.length = args.length then (os, bad)
    else
      let (more, worse) := printAll ds fuel left
      (os ++ more, bad ++ worse)

/-- What `printf` writes, and the arguments that should be numbers and are not. -/
def printf (format : String) (args : List String) : Octets × List String :=
  printAll (directives (format.length + 1) format.toList) (args.length + 1) args

end CommitGate.Shell

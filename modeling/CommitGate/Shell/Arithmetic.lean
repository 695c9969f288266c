import CommitGate.Text.DecimalDigit

/-!
# Arithmetic of the shell

Expressions over integers: operators without effects, and variables by name. A name without a value
counts as zero.
-/

namespace CommitGate.Shell

/-- The number in 64 bits with a sign. -/
def wrap (n : Int) : Int :=
  Int.bmod n 0x10000000000000000

/-- The number in 64 bits without a sign. -/
def unsigned (n : Int) : Nat :=
  (n.emod 0x10000000000000000).toNat

/-- A power of two. -/
def shifted (n : Int) : Int :=
  Nat.pow 2 (n.emod 64).toNat

/-- A token of an expression. -/
inductive ArithToken where
  | number (n : Int)
  | name (s : String)
  | operator (s : String)
deriving DecidableEq, Repr

/-- The operators, longer ones before their beginnings. -/
def arithOperators : List String :=
  ["<<", ">>", "<=", ">=", "==", "!=", "&&", "||", "+", "-", "*", "/", "%", "<", ">", "&", "|",
    "^", "!", "~", "(", ")", "?", ":"]

/-- The value of a numeral: decimal, octal after a zero, or hexadecimal after `0x`. -/
def numeral? (s : List Char) : Option Int :=
  let value := fun (base : Nat) (ds : List Char) =>
    ds.foldlM (fun (n : Int) c => do
      let d ← Text.hexValue? c
      if d < base then some (n * base + d) else none) 0
  match s with
  | '0' :: 'x' :: r => value 16 r
  | '0' :: r => value 8 r
  | s => value 10 s

/-- The tokens of an expression. -/
def arithTokens : Nat → List Char → Option (List ArithToken)
  | 0, _ => none
  | _, [] => some []
  | fuel + 1, c :: r =>
    let s := c :: r
    if c.isWhitespace then arithTokens fuel r
    else if c.isDigit then do
      let n ← numeral? (s.takeWhile Char.isAlphanum)
      some (.number n :: (← arithTokens fuel (s.dropWhile Char.isAlphanum)))
    else if c.isAlpha || c == '_' then do
      let inName := fun (c : Char) => c.isAlphanum || c == '_'
      some (.name (String.ofList (s.takeWhile inName)) :: (← arithTokens fuel (s.dropWhile inName)))
    else
      match arithOperators.find? fun o => o.toList.isPrefixOf s with
      | some o => do some (.operator o :: (← arithTokens fuel (s.drop o.length)))
      | none => none

/-- The operators with two operands, weakest first. -/
def arithLevels : List (List String) :=
  [["||"], ["&&"], ["|"], ["^"], ["&"], ["==", "!="], ["<", "<=", ">", ">="], ["<<", ">>"],
    ["+", "-"], ["*", "/", "%"]]

/-- One for a true statement. -/
def truth (b : Bool) : Int :=
  if b then 1 else 0

/-- The value of an operator with two operands; a division by zero has none. -/
def operate? (o : String) (a b : Int) : Option Int :=
  match o with
  | "||" => some (truth (a ≠ 0 ∨ b ≠ 0))
  | "&&" => some (truth (a ≠ 0 ∧ b ≠ 0))
  | "|" => some (wrap ((unsigned a ||| unsigned b : Nat) : Int))
  | "^" => some (wrap ((unsigned a ^^^ unsigned b : Nat) : Int))
  | "&" => some (wrap ((unsigned a &&& unsigned b : Nat) : Int))
  | "==" => some (truth (a = b))
  | "!=" => some (truth (a ≠ b))
  | "<" => some (truth (a < b))
  | "<=" => some (truth (a ≤ b))
  | ">" => some (truth (b < a))
  | ">=" => some (truth (b ≤ a))
  | "<<" => some (wrap (a * shifted b))
  | ">>" => some (Int.fdiv a (shifted b))
  | "+" => some (wrap (a + b))
  | "-" => some (wrap (a - b))
  | "*" => some (wrap (a * b))
  | "/" => if b = 0 then none else some (wrap (Int.tdiv a b))
  | "%" => if b = 0 then none else some (Int.tmod a b)
  | _ => none

mutual

/-- The value of an expression whose operators are of the given levels or stronger. -/
def arithLevel (value : String → Int) :
    Nat → List (List String) → List ArithToken → Option (Int × List ArithToken)
  | 0, _, _ => none
  | fuel + 1, [], ts => arithOperand value fuel ts
  | fuel + 1, os :: levels, ts => do
    let (a, ts) ← arithLevel value fuel levels ts
    arithMore value fuel os levels a ts

/-- What further operators of one level make of a value. -/
def arithMore (value : String → Int) :
    Nat → List String → List (List String) → Int → List ArithToken → Option (Int × List ArithToken)
  | 0, _, _, _, _ => none
  | fuel + 1, os, levels, a, ts =>
    match ts with
    | .operator o :: r =>
      if o ∈ os then do
        let (b, ts) ← arithLevel value fuel levels r
        arithMore value fuel os levels (← operate? o a b) ts
      else some (a, ts)
    | ts => some (a, ts)

/-- The value of an operand. -/
def arithOperand (value : String → Int) : Nat → List ArithToken → Option (Int × List ArithToken)
  | 0, _ => none
  | fuel + 1, ts =>
    match ts with
    | .number n :: r => some (wrap n, r)
    | .name s :: r => some (value s, r)
    | .operator "(" :: r => do
      let (a, ts) ← arithChoice value fuel r
      match ts with
      | .operator ")" :: r => some (a, r)
      | _ => none
    | .operator "-" :: r => do
      let (a, ts) ← arithOperand value fuel r
      some (wrap (-a), ts)
    | .operator "+" :: r => arithOperand value fuel r
    | .operator "!" :: r => do
      let (a, ts) ← arithOperand value fuel r
      some (truth (a = 0), ts)
    | .operator "~" :: r => do
      let (a, ts) ← arithOperand value fuel r
      some (-a - 1, ts)
    | _ => none

/-- The value of an expression with a choice between two. -/
def arithChoice (value : String → Int) : Nat → List ArithToken → Option (Int × List ArithToken)
  | 0, _ => none
  | fuel + 1, ts => do
    let (a, ts) ← arithLevel value fuel arithLevels ts
    match ts with
    | .operator "?" :: r => do
      let (b, ts) ← arithChoice value fuel r
      match ts with
      | .operator ":" :: r => do
        let (c, ts) ← arithChoice value fuel r
        some (if a ≠ 0 then b else c, ts)
      | _ => none
    | ts => some (a, ts)

end

/-- The value of an expression; an empty one counts as zero. -/
def arithmetic? (value : String → Int) (s : List Char) : Option Int := do
  match ← arithTokens (s.length + 1) s with
  | [] => some 0
  | ts =>
    match ← arithChoice value (20 * ts.length + 20) ts with
    | (n, []) => some n
    | _ => none

end CommitGate.Shell

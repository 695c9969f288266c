/-!
# Decimal digits

The code points with the general category `Nd` come in runs of ten, from zero to nine. A digit in
this sense may be of any script; only the digits of the first run are read as numbers.

Results:

* `isDecimalDigit_of_isDigit`: the ten ASCII digits are decimal digits.
* `natOfDigits_digitsOfNat`: the digits of a number spell this number.
-/

namespace CommitGate.Text

/-- The zeros of the decimal digits, in code point order; the nine other digits follow each of them.
-/
def decimalZeros : List Nat := [
  0x30, 0x660, 0x6F0, 0x7C0, 0x966, 0x9E6, 0xA66, 0xAE6, 0xB66, 0xBE6, 0xC66, 0xCE6, 0xD66, 0xDE6,
  0xE50, 0xED0, 0xF20, 0x1040, 0x1090, 0x17E0, 0x1810, 0x1946, 0x19D0, 0x1A80, 0x1A90, 0x1B50,
  0x1BB0, 0x1C40, 0x1C50, 0xA620, 0xA8D0, 0xA900, 0xA9D0, 0xA9F0, 0xAA50, 0xABF0, 0xFF10, 0x104A0,
  0x10D30, 0x10D40, 0x11066, 0x110F0, 0x11136, 0x111D0, 0x112F0, 0x11450, 0x114D0, 0x11650, 0x116C0,
  0x116D0, 0x116DA, 0x11730, 0x118E0, 0x11950, 0x11BF0, 0x11C50, 0x11D50, 0x11DA0, 0x11F50, 0x16130,
  0x16A60, 0x16AC0, 0x16B50, 0x16D70, 0x1CCF0, 0x1D7CE, 0x1D7D8, 0x1D7E2, 0x1D7EC, 0x1D7F6, 0x1E140,
  0x1E2F0, 0x1E4F0, 0x1E5F1, 0x1E950, 0x1FBF0]

/-- A decimal digit of any script. -/
def isDecimalDigit (c : Char) : Bool :=
  decimalZeros.any fun z => z ≤ c.toNat && c.toNat < z + 10

/-- The number an ASCII digit stands for. -/
def digitValue (c : Char) : Nat :=
  c.toNat - '0'.toNat

/-- The number that a run of ASCII digits spells, in base `base`, the leftmost digit first. -/
def natOfDigits (base : Nat) (s : List Char) : Nat :=
  s.foldl (fun n c => n * base + digitValue c) 0

/-- The value of a digit in base sixteen. -/
def hexValue? (c : Char) : Option Nat :=
  if c.isDigit then some (digitValue c)
  else if 'a' ≤ c ∧ c ≤ 'f' then some (c.toNat - 'a'.toNat + 10)
  else if 'A' ≤ c ∧ c ≤ 'F' then some (c.toNat - 'A'.toNat + 10)
  else none

/-- The decimal digits of a number. -/
def digitsOfNat (n : Nat) : List Char :=
  Nat.toDigits 10 n

/-- The number that a text of ASCII digits stands for, when it has a digit and stays below `bound`.
A plus sign may stand in front. -/
def natBelow? (bound : Nat) (s : List Char) : Option Nat :=
  let digits := if s.head? = some '+' then s.tail else s
  if digits ≠ [] ∧ digits.all Char.isDigit = true ∧ natOfDigits 10 digits < bound then
    some (natOfDigits 10 digits)
  else none

theorem isDecimalDigit_of_isDigit {c : Char} (h : c.isDigit = true) : isDecimalDigit c = true := by
  simp only [Char.isDigit, ge_iff_le, Bool.and_eq_true, decide_eq_true_eq,
    UInt32.le_iff_toNat_le] at h
  simp only [isDecimalDigit, decimalZeros, List.any_cons, Bool.or_eq_true]
  left
  have h1 : (48 : Nat) ≤ c.toNat := h.1
  have h2 : c.toNat ≤ 57 := h.2
  simp only [Bool.and_eq_true, decide_eq_true_eq]
  omega

theorem isDigit_of_mem_digitsOfNat {n : Nat} {c : Char} (h : c ∈ digitsOfNat n) :
    c.isDigit = true :=
 
  Nat.isDigit_of_mem_toDigits (by omega) (by omega) h

theorem digitsOfNat_ne_nil (n : Nat) : digitsOfNat n ≠ [] :=
  Nat.toDigits_ne_nil

theorem natOfDigits_eq (s : List Char) : natOfDigits 10 s = Nat.ofDigitChars 10 s 0 := by
  have hfold (m : Nat) :
      s.foldl (fun n c => n * 10 + digitValue c) m = Nat.ofDigitChars 10 s m := by
    induction s generalizing m with
    | nil => rfl
    | cons c s ih =>
      rw [List.foldl_cons, Nat.ofDigitChars_cons, Nat.mul_comm m 10]
      exact ih _
  exact hfold 0

theorem natOfDigits_digitsOfNat (n : Nat) : natOfDigits 10 (digitsOfNat n) = n := by
  rw [natOfDigits_eq]
  exact Nat.ofDigitChars_ten_toDigits

end CommitGate.Text

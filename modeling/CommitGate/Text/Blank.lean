/-!
# Blank characters and trimming

White space is the set of code points with the property `White_Space`. Every place that trims text
or asks whether it is empty "apart from white space" uses this one set.

Results:

* `trimmed_eq_nil_iff`: what is left after trimming is empty exactly when every character is blank.
-/

namespace CommitGate.Text

/-- The code points with the property `White_Space`. -/
def isBlank (c : Char) : Bool :=
  let n := c.toNat
  (9 ≤ n && n ≤ 13) || n == 0x20 || n == 0x85 || n == 0xA0 || n == 0x1680 ||
    (0x2000 ≤ n && n ≤ 0x200A) || n == 0x2028 || n == 0x2029 || n == 0x202F || n == 0x205F ||
    n == 0x3000

/-- The characters between the blank ends. -/
def trimmed (s : List Char) : List Char :=
  ((s.dropWhile isBlank).reverse.dropWhile isBlank).reverse

/-- The octets that are white space, in a text whose characters are octets. -/
def isSpace (c : Char) : Bool :=
  c == ' ' || ('\t' ≤ c && c ≤ '\r')

/-- The octets between those at the ends that are white space. -/
def stripped (s : List Char) : List Char :=
  ((s.dropWhile isSpace).reverse.dropWhile isSpace).reverse

/-- The text holds nothing but blank characters. -/
def allBlank (s : String) : Bool :=
  s.toList.all isBlank

/-- Dropping a blank prefix leaves nothing exactly when all was blank. -/
theorem dropWhile_isBlank_eq_nil_iff (s : List Char) :
    s.dropWhile isBlank = [] ↔ s.all isBlank = true := by
  induction s with
  | nil => simp
  | cons c r ih => by_cases h : isBlank c = true <;> simp_all [List.dropWhile]

theorem trimmed_eq_nil_iff (s : List Char) : trimmed s = [] ↔ s.all isBlank = true := by
  rw [trimmed, List.reverse_eq_nil_iff, dropWhile_isBlank_eq_nil_iff, List.all_reverse]
  constructor
  · intro h
    rw [← List.takeWhile_append_dropWhile (p := isBlank) (l := s), List.all_append, h,
      Bool.and_true]
    exact List.all_takeWhile
  · intro h
    rw [(dropWhile_isBlank_eq_nil_iff s).2 h, List.all_nil]

end CommitGate.Text

/-!
# UTF-8

`encode` writes characters as octets. Reading is a machine that takes one octet at a time and holds
at most one unfinished character; each output unit is a character, or `none` for a maximal run of
octets that begins a character and cannot be completed. Strict reading refuses any such run, lossy
reading puts U+FFFD in its place.

Results:

* `narrow_wide`: octets are read back from the characters that stand for them.
* `units_append`: reading a concatenation is reading the parts, with the unfinished character
  carried over.
-/

namespace CommitGate.Text

/-- A finite stream of octets. -/
abbrev Octets := List UInt8

/-- The octets of one character. -/
def encodeChar (c : Char) : Octets :=
  let n := c.toNat
  if n < 0x80 then [n.toUInt8]
  else if n < 0x800 then [(0xC0 + n / 64).toUInt8, (0x80 + n % 64).toUInt8]
  else if n < 0x10000 then
    [(0xE0 + n / 4096).toUInt8, (0x80 + n / 64 % 64).toUInt8, (0x80 + n % 64).toUInt8]
  else
    [(0xF0 + n / 262144).toUInt8, (0x80 + n / 4096 % 64).toUInt8, (0x80 + n / 64 % 64).toUInt8,
      (0x80 + n % 64).toUInt8]

/-- The octets of a text. -/
def encode (s : List Char) : Octets :=
  s.flatMap encodeChar

/-! ## Octets one by one -/

/-- Octets as characters, one for each: the text of a program that knows no characters. -/
def wide (s : Octets) : List Char :=
  s.map fun b => Char.ofNat b.toNat

/-- The octets that such characters stand for. -/
def narrow (s : List Char) : Octets :=
  s.map fun c => c.toNat.toUInt8

/-! ## The reading machine -/

/-- A character whose first octets have been read. -/
structure Unfinished where
  /-- The bits read so far. -/
  bits : Nat
  /-- How many octets are to follow the next one. -/
  after : Nat
  /-- The least value the next octet may have. -/
  low : Nat
  /-- The greatest value the next octet may have. -/
  high : Nat
deriving DecidableEq, Repr

/-- An octet at the start of a character: what it completes, and what it leaves unfinished. The
ranges exclude overlong forms, surrogates and values above U+10FFFF at the second octet already. -/
def startOctet (b : UInt8) : List (Option Char) × Option Unfinished :=
  let n := b.toNat
  if n < 0x80 then ([some (Char.ofNat n)], none)
  else if 0xC2 ≤ n ∧ n ≤ 0xDF then ([], some ⟨n - 0xC0, 0, 0x80, 0xBF⟩)
  else if n = 0xE0 then ([], some ⟨0, 1, 0xA0, 0xBF⟩)
  else if n = 0xED then ([], some ⟨0xD, 1, 0x80, 0x9F⟩)
  else if 0xE1 ≤ n ∧ n ≤ 0xEF then ([], some ⟨n - 0xE0, 1, 0x80, 0xBF⟩)
  else if n = 0xF0 then ([], some ⟨0, 2, 0x90, 0xBF⟩)
  else if 0xF1 ≤ n ∧ n ≤ 0xF3 then ([], some ⟨n - 0xF0, 2, 0x80, 0xBF⟩)
  else if n = 0xF4 then ([], some ⟨4, 2, 0x80, 0x8F⟩)
  else ([none], none)

/-- One octet, after the unfinished character `p` if there is one. An octet that cannot continue it
ends the malformed run and starts afresh. -/
def readOctet (p : Option Unfinished) (b : UInt8) : List (Option Char) × Option Unfinished :=
  match p with
  | none => startOctet b
  | some u =>
    if u.low ≤ b.toNat ∧ b.toNat ≤ u.high then
      let bits := u.bits * 64 + (b.toNat - 0x80)
      match u.after with
      | 0 => ([some (Char.ofNat bits)], none)
      | k + 1 => ([], some ⟨bits, k, 0x80, 0xBF⟩)
    else
      let (out, next) := startOctet b
      (none :: out, next)

/-- The units of a stream and the character left unfinished at its end. -/
def unitsFrom : Option Unfinished → Octets → List (Option Char) × Option Unfinished
  | p, [] => ([], p)
  | p, b :: r =>
    let (out, next) := readOctet p b
    let (rest, last) := unitsFrom next r
    (out ++ rest, last)

/-- The units of a whole stream: a character still unfinished at the end is malformed. -/
def units (s : Octets) : List (Option Char) :=
  let (out, last) := unitsFrom none s
  if last.isSome then out ++ [none] else out

/-! ## Strict and lossy reading -/

/-- The text of a stream, with U+FFFD for each malformed run. -/
def decodeLossy (s : Octets) : List Char :=
  (units s).map (·.getD '\uFFFD')

/-- The text of a stream that is well formed throughout. -/
def decode? (s : Octets) : Option (List Char) :=
  (units s).mapM id

theorem narrow_wide (s : Octets) : narrow (wide s) = s := by
  have hoctet (b : UInt8) : (Char.ofNat b.toNat).toNat.toUInt8 = b := by
    have hvalid : b.toNat.isValidChar := .inl (Nat.lt_trans b.toNat_lt (by decide))
    rw [Char.ofNat, dif_pos hvalid]
    exact UInt8.ofNat_toNat
  rw [narrow, wide, List.map_map]
  exact List.map_id'' hoctet s

theorem unitsFrom_append (p : Option Unfinished) (s t : Octets) :
    unitsFrom p (s ++ t) = ((unitsFrom p s).1 ++ (unitsFrom (unitsFrom p s).2 t).1,
      (unitsFrom (unitsFrom p s).2 t).2) := by
  induction s generalizing p with
  | nil => simp [unitsFrom]
  | cons b r ih => simp [unitsFrom, ih, List.append_assoc]

/-- After a stream that leaves nothing unfinished, reading goes on as if afresh. -/
theorem units_append (s t : Octets) (h : (unitsFrom none s).2 = none) :
    units (s ++ t) = (unitsFrom none s).1 ++ units t := by
  simp only [units, unitsFrom_append, h]
  split <;> simp_all

end CommitGate.Text

import CommitGate.Path

/-!
# Reading UTF-8

The reading machine cuts a stream into segments, one for each unit that it gives out. The segment of
a character is its encoding, whatever stands around it: an octet that starts a character never
continues another one. So a text is read where its octets stand, after any broken run, and only
there.

Results:

* `octets_eq`: the octets of a text are those of the standard library.
* `reads_units`: the segments of a stream, joined, give the stream back.
* `decode?_eq_some_iff`: the octets of a text are read as that text, and no others are.
* `decodeLossy_append_encode`: a text cuts a stream into two that are read on their own.
* `infix_decodeLossy_of_infix`: a text is read where its octets stand.
* `infix_decodeLossy_iff`: a text without U+FFFD is read nowhere else.
* `text?_eq_some_iff`: a raw text is a text when its octets are those of one.
-/

namespace CommitGate.Text

/-! ## The octets of a character -/

theorem toNat_valid (c : Char) : c.toNat < 0xD800 ∨ 0xDFFF < c.toNat ∧ c.toNat < 0x110000 :=
  c.valid

theorem toNat_ofNat {n : Nat} (h : n < 0xD800 ∨ 0xDFFF < n ∧ n < 0x110000) :
    (Char.ofNat n).toNat = n := by
  rw [Char.ofNat, dif_pos h]
  rfl

theorem toUInt8_eq {n : Nat} {b : UInt8} (h : n = b.toNat) : n.toUInt8 = b := by
  subst h
  exact UInt8.ofNat_toNat

theorem encodeChar_eq (c : Char) : encodeChar c = String.utf8EncodeChar c := by
  have hc := toNat_valid c
  unfold encodeChar String.utf8EncodeChar
  simp only [Char.toNat_val]
  generalize c.toNat = n at hc ⊢
  have lead (x y k : Nat) (h : y < k) : (x + y).toUInt8 = UInt8.ofNat (y % k + x) := by
    rw [Nat.mod_eq_of_lt h, Nat.add_comm]
  have tail (y : Nat) : (0x80 + y).toUInt8 = UInt8.ofNat (y + 0x80) := by
    rw [Nat.add_comm]
  by_cases h1 : n < 0x80
  · rw [if_pos h1, if_pos (show n ≤ 0x7F by omega)]
  · rw [if_neg h1, if_neg (show ¬ n ≤ 0x7F by omega)]
    by_cases h2 : n < 0x800
    · rw [if_pos h2, if_pos (show n ≤ 0x7FF by omega), lead 0xC0 (n / 64) 0x20 (by omega), tail]
    · rw [if_neg h2, if_neg (show ¬ n ≤ 0x7FF by omega)]
      by_cases h3 : n < 0x10000
      · rw [if_pos h3, if_pos (show n ≤ 0xFFFF by omega), lead 0xE0 (n / 4096) 0x10 (by omega),
          tail, tail]
      · rw [if_neg h3, if_neg (show ¬ n ≤ 0xFFFF by omega), lead 0xF0 (n / 262144) 8 (by omega),
          tail, tail, tail]

/-- The octets of a text in the standard library. -/
def octets (s : String) : Octets :=
  s.toUTF8.data.toList

theorem octets_eq (s : String) : octets s = encode s.toList := by
  unfold octets encode
  rw [String.toUTF8, ← String.utf8Encode_toList, List.utf8Encode, List.toList_data_toByteArray]
  rw [show encodeChar = String.utf8EncodeChar from funext encodeChar_eq]

theorem encodeChar_one {a : UInt8} (ha : a.toNat < 0x80) :
    encodeChar (Char.ofNat a.toNat) = [a] := by
  unfold encodeChar
  rw [toNat_ofNat (by omega), if_pos ha, toUInt8_eq rfl]

theorem encodeChar_two {a b : UInt8} (ha : 0xC2 ≤ a.toNat ∧ a.toNat ≤ 0xDF)
    (hb : 0x80 ≤ b.toNat ∧ b.toNat ≤ 0xBF) :
    encodeChar (Char.ofNat ((a.toNat - 0xC0) * 64 + (b.toNat - 0x80))) = [a, b] := by
  obtain ⟨n, hn⟩ : ∃ n, n = (a.toNat - 0xC0) * 64 + (b.toNat - 0x80) := ⟨_, rfl⟩
  rw [← hn]
  unfold encodeChar
  rw [toNat_ofNat (by omega), if_neg (by omega), if_pos (by omega), toUInt8_eq (b := a) (by omega),
    toUInt8_eq (b := b) (by omega)]

theorem encodeChar_three {a b c : UInt8} (ha : 0xE0 ≤ a.toNat ∧ a.toNat ≤ 0xEF)
    (hb : 0x80 ≤ b.toNat ∧ b.toNat ≤ 0xBF) (hc : 0x80 ≤ c.toNat ∧ c.toNat ≤ 0xBF)
    (long : a.toNat = 0xE0 → 0xA0 ≤ b.toNat) (surrogate : a.toNat = 0xED → b.toNat ≤ 0x9F) :
    encodeChar (Char.ofNat (((a.toNat - 0xE0) * 64 + (b.toNat - 0x80)) * 64 + (c.toNat - 0x80))) =
      [a, b, c] := by
  obtain ⟨n, hn⟩ : ∃ n, n = ((a.toNat - 0xE0) * 64 + (b.toNat - 0x80)) * 64 + (c.toNat - 0x80) :=
    ⟨_, rfl⟩
  rw [← hn]
  unfold encodeChar
  rw [toNat_ofNat (by omega), if_neg (by omega), if_neg (by omega), if_pos (by omega),
    toUInt8_eq (b := a) (by omega), toUInt8_eq (b := b) (by omega), toUInt8_eq (b := c) (by omega)]

theorem encodeChar_four {a b c d : UInt8} (ha : 0xF0 ≤ a.toNat ∧ a.toNat ≤ 0xF4)
    (hb : 0x80 ≤ b.toNat ∧ b.toNat ≤ 0xBF) (hc : 0x80 ≤ c.toNat ∧ c.toNat ≤ 0xBF)
    (hd : 0x80 ≤ d.toNat ∧ d.toNat ≤ 0xBF) (long : a.toNat = 0xF0 → 0x90 ≤ b.toNat)
    (large : a.toNat = 0xF4 → b.toNat ≤ 0x8F) :
    encodeChar (Char.ofNat
      ((((a.toNat - 0xF0) * 64 + (b.toNat - 0x80)) * 64 + (c.toNat - 0x80)) * 64 +
        (d.toNat - 0x80))) = [a, b, c, d] := by
  obtain ⟨n, hn⟩ : ∃ n, n =
      (((a.toNat - 0xF0) * 64 + (b.toNat - 0x80)) * 64 + (c.toNat - 0x80)) * 64 +
        (d.toNat - 0x80) := ⟨_, rfl⟩
  rw [← hn]
  unfold encodeChar
  rw [toNat_ofNat (by omega), if_neg (by omega), if_neg (by omega), if_neg (by omega),
    toUInt8_eq (b := a) (by omega), toUInt8_eq (b := b) (by omega), toUInt8_eq (b := c) (by omega),
    toUInt8_eq (b := d) (by omega)]

/-! ## Single octets -/

theorem startOctet_one {a : UInt8} (ha : a.toNat < 0x80) :
    startOctet a = ([some (Char.ofNat a.toNat)], none) := by
  unfold startOctet
  rw [if_pos ha]

theorem startOctet_two {a : UInt8} (ha : 0xC2 ≤ a.toNat ∧ a.toNat ≤ 0xDF) :
    startOctet a = ([], some ⟨a.toNat - 0xC0, 0, 0x80, 0xBF⟩) := by
  unfold startOctet
  rw [if_neg (by omega), if_pos ha]

theorem startOctet_three {a : UInt8} (ha : 0xE0 ≤ a.toNat ∧ a.toNat ≤ 0xEF) :
    startOctet a = ([], some ⟨a.toNat - 0xE0, 1, if a.toNat = 0xE0 then 0xA0 else 0x80,
      if a.toNat = 0xED then 0x9F else 0xBF⟩) := by
  unfold startOctet
  rw [if_neg (by omega), if_neg (by omega)]
  by_cases h0 : a.toNat = 0xE0
  · simp [h0]
  by_cases hD : a.toNat = 0xED
  · simp [hD]
  rw [if_neg h0, if_neg hD, if_pos (by omega), if_neg h0, if_neg hD]

theorem startOctet_four {a : UInt8} (ha : 0xF0 ≤ a.toNat ∧ a.toNat ≤ 0xF4) :
    startOctet a = ([], some ⟨a.toNat - 0xF0, 2, if a.toNat = 0xF0 then 0x90 else 0x80,
      if a.toNat = 0xF4 then 0x8F else 0xBF⟩) := by
  unfold startOctet
  rw [if_neg (by omega), if_neg (by omega), if_neg (by omega), if_neg (by omega), if_neg (by omega)]
  by_cases h0 : a.toNat = 0xF0
  · simp [h0]
  by_cases h4 : a.toNat = 0xF4
  · simp [h4]
  rw [if_neg h0, if_pos (by omega), if_neg h0, if_neg h4]

theorem readOctet_last (bits : Nat) {low high : Nat} {b : UInt8}
    (h : low ≤ b.toNat ∧ b.toNat ≤ high) :
    readOctet (some ⟨bits, 0, low, high⟩) b =
      ([some (Char.ofNat (bits * 64 + (b.toNat - 0x80)))], none) := by
  simp only [readOctet]
  rw [if_pos h]

theorem readOctet_next (bits k : Nat) {low high : Nat} {b : UInt8}
    (h : low ≤ b.toNat ∧ b.toNat ≤ high) :
    readOctet (some ⟨bits, k + 1, low, high⟩) b =
      ([], some ⟨bits * 64 + (b.toNat - 0x80), k, 0x80, 0xBF⟩) := by
  simp only [readOctet]
  rw [if_pos h]

/-! ## Unfinished characters -/

/-- Every way to go on from some octets, by one octet in the range and `after` more that are to
follow it, ends with the octets of the character that the bits make up. -/
def Completes : (after bits low high : Nat) → Octets → Prop
  | 0, bits, low, high, held =>
    ∀ b : UInt8, low ≤ b.toNat → b.toNat ≤ high →
      encodeChar (Char.ofNat (bits * 64 + (b.toNat - 0x80))) = held ++ [b]
  | after + 1, bits, low, high, held =>
    ∀ b : UInt8, low ≤ b.toNat → b.toNat ≤ high →
      Completes after (bits * 64 + (b.toNat - 0x80)) 0x80 0xBF (held ++ [b])

/-- A character is unfinished after these octets; only an octet that starts no character goes on
with it. -/
structure Unfinished.Holds (u : Unfinished) (held : Octets) : Prop where
  low : 0x80 ≤ u.low
  high : u.high ≤ 0xBF
  completes : Completes u.after u.bits u.low u.high held

/-- What the machine holds after some octets that have not come out yet. -/
def Pending : Option Unfinished → Octets → Prop
  | none, held => held = []
  | some u, held => u.Holds held

theorem pending_none : Pending none [] := rfl

theorem holds_two {a : UInt8} (ha : 0xC2 ≤ a.toNat ∧ a.toNat ≤ 0xDF) :
    Unfinished.Holds ⟨a.toNat - 0xC0, 0, 0x80, 0xBF⟩ [a] where
  low := Nat.le_refl _
  high := Nat.le_refl _
  completes _ low high := encodeChar_two ha ⟨low, high⟩

theorem holds_three {a : UInt8} {low high : Nat} (ha : 0xE0 ≤ a.toNat ∧ a.toNat ≤ 0xEF)
    (hlow : 0x80 ≤ low) (hhigh : high ≤ 0xBF) (long : a.toNat = 0xE0 → 0xA0 ≤ low)
    (surrogate : a.toNat = 0xED → high ≤ 0x9F) :
    Unfinished.Holds ⟨a.toNat - 0xE0, 1, low, high⟩ [a] where
  low := hlow
  high := hhigh
  completes b lowb highb c lowc highc := by
    dsimp only at lowb highb
    exact encodeChar_three ha ⟨by omega, by omega⟩ ⟨lowc, highc⟩ (by omega) (by omega)

theorem holds_four {a : UInt8} {low high : Nat} (ha : 0xF0 ≤ a.toNat ∧ a.toNat ≤ 0xF4)
    (hlow : 0x80 ≤ low) (hhigh : high ≤ 0xBF) (long : a.toNat = 0xF0 → 0x90 ≤ low)
    (large : a.toNat = 0xF4 → high ≤ 0x8F) :
    Unfinished.Holds ⟨a.toNat - 0xF0, 2, low, high⟩ [a] where
  low := hlow
  high := hhigh
  completes b lowb highb c lowc highc d lowd highd := by
    dsimp only at lowb highb
    exact encodeChar_four ha ⟨by omega, by omega⟩ ⟨lowc, highc⟩ ⟨lowd, highd⟩ (by omega) (by omega)

/-- What an octet does at the start of a character. -/
inductive Starts (b : UInt8) : List (Option Char) × Option Unfinished → Prop where
  | char {c : Char} (h : encodeChar c = [b]) : Starts b ([some c], none)
  | unfinished {u : Unfinished} (h : u.Holds [b]) : Starts b ([], some u)
  | broken : Starts b ([none], none)

theorem startOctet_starts (b : UInt8) : Starts b (startOctet b) := by
  by_cases one : b.toNat < 0x80
  · rw [startOctet_one one]
    exact .char (encodeChar_one one)
  by_cases two : 0xC2 ≤ b.toNat ∧ b.toNat ≤ 0xDF
  · rw [startOctet_two two]
    exact .unfinished (holds_two two)
  by_cases three : 0xE0 ≤ b.toNat ∧ b.toNat ≤ 0xEF
  · rw [startOctet_three three]
    refine .unfinished (holds_three three ?_ ?_ ?_ ?_) <;> split <;> omega
  by_cases four : 0xF0 ≤ b.toNat ∧ b.toNat ≤ 0xF4
  · rw [startOctet_four four]
    refine .unfinished (holds_four four ?_ ?_ ?_ ?_) <;> split <;> omega
  have broken : startOctet b = ([none], none) := by
    unfold startOctet
    rw [if_neg one, if_neg two, if_neg (by omega), if_neg (by omega), if_neg (by omega),
      if_neg (by omega), if_neg (by omega), if_neg (by omega)]
  rw [broken]
  exact .broken

/-! ## Segments -/

/-- The segments of a stream, one for each unit; that of a character is its encoding. -/
inductive Reads : List (Option Char) → Octets → Prop where
  | nil : Reads [] []
  | char (c : Char) {us : List (Option Char)} {s : Octets} (rest : Reads us s) :
      Reads (some c :: us) (encodeChar c ++ s)
  | broken (run : Octets) {us : List (Option Char)} {s : Octets} (rest : Reads us s) :
      Reads (none :: us) (run ++ s)

theorem Reads.append {us us' : List (Option Char)} {s s' : Octets} (h : Reads us s)
    (h' : Reads us' s') :
    Reads (us ++ us') (s ++ s') := by
  induction h with
  | nil => exact h'
  | char c rest ih =>
    rw [List.append_assoc]
    exact .char c ih
  | broken run rest ih =>
    rw [List.append_assoc]
    exact .broken run ih

theorem Reads.single {c : Char} {s : Octets} (h : encodeChar c = s) : Reads [some c] s := by
  have := Reads.char c .nil
  rwa [List.append_nil, h] at this

theorem Reads.cut (run : Octets) : Reads [none] run := by
  have := Reads.broken run .nil
  rwa [List.append_nil] at this

/-- The octets that have come out as `us`, when `s` was read after the octets of `p`, and those that
are pending then. -/
def Advances (held s : Octets) (x : List (Option Char) × Option Unfinished) : Prop :=
  ∃ read left, Reads x.1 read ∧ Pending x.2 left ∧ held ++ s = read ++ left

theorem startOctet_advances (b : UInt8) : Advances [] [b] (startOctet b) := by
  have hstart := startOctet_starts b
  generalize startOctet b = x at hstart ⊢
  cases hstart with
  | char h => exact ⟨[b], [], .single h, pending_none, rfl⟩
  | unfinished h => exact ⟨[], [b], .nil, h, rfl⟩
  | broken => exact ⟨[b], [], .cut [b], pending_none, rfl⟩

theorem readOctet_advances {p : Option Unfinished} {held : Octets} (h : Pending p held)
    (b : UInt8) :
    Advances held [b] (readOctet p b) := by
  cases p with
  | none =>
    rw [show held = [] from h]
    exact startOctet_advances b
  | some u =>
    simp only [readOctet]
    split
    · rename_i hrange
      have hcompletes := h.completes
      split
      · rename_i hafter
        rw [hafter] at hcompletes
        exact ⟨held ++ [b], [], .single (hcompletes b hrange.1 hrange.2), rfl,
          (List.append_nil _).symm⟩
      · rename_i k hafter
        rw [hafter] at hcompletes
        exact ⟨[], held ++ [b], .nil, ⟨Nat.le_refl _, Nat.le_refl _,
          hcompletes b hrange.1 hrange.2⟩, rfl⟩
    · -- The run ends before this octet, which is read afresh.
      obtain ⟨read, left, hread, hleft, heq⟩ := startOctet_advances b
      refine ⟨held ++ read, left, .broken held hread, hleft, ?_⟩
      rw [List.append_assoc, ← heq, List.nil_append]

theorem unitsFrom_advances {p : Option Unfinished} {held : Octets} (h : Pending p held)
    (s : Octets) :
    Advances held s (unitsFrom p s) := by
  induction s generalizing p held with
  | nil => exact ⟨[], held, .nil, h, List.append_nil _⟩
  | cons b s ih =>
    obtain ⟨read, left, hread, hleft, heq⟩ := readOctet_advances h b
    obtain ⟨read', left', hread', hleft', heq'⟩ := ih hleft
    refine ⟨read ++ read', left', hread.append hread', hleft', ?_⟩
    calc held ++ b :: s = held ++ [b] ++ s := by simp
      _ = read ++ (left ++ s) := by rw [heq, List.append_assoc]
      _ = read ++ read' ++ left' := by rw [heq', List.append_assoc]

/-- What an unfinished character leaves when it is cut off. -/
def cutOff (p : Option Unfinished) : List (Option Char) :=
  p.elim [] fun _ => [none]

theorem units_eq (s : Octets) : units s = (unitsFrom none s).1 ++ cutOff (unitsFrom none s).2 := by
  unfold units cutOff
  cases h : (unitsFrom none s).2 <;> simp [h]

/-- **The segments of a stream, joined, give the stream back.** -/
theorem reads_units (s : Octets) : Reads (units s) s := by
  obtain ⟨read, left, hread, hleft, heq⟩ := unitsFrom_advances pending_none s
  have hcut : Reads (cutOff (unitsFrom none s).2) left := by
    generalize (unitsFrom none s).2 = p at hleft ⊢
    cases p with
    | none =>
      rw [show left = [] from hleft]
      exact .nil
    | some u => exact .cut left
  have := hread.append hcut
  rwa [← heq, ← units_eq] at this

/-! ## Reading what was written -/

theorem readOctet_of_leads {p : Option Unfinished} {held : Octets} (hp : Pending p held) {b : UInt8}
    (hb : b.toNat < 0x80 ∨ 0xC0 ≤ b.toNat) :
    readOctet p b = (cutOff p ++ (startOctet b).1, (startOctet b).2) := by
  cases p with
  | none => rfl
  | some u =>
    have hlow := hp.low
    have hhigh := hp.high
    simp only [readOctet]
    rw [if_neg (by omega)]
    rfl

theorem unitsFrom_two {a b : UInt8} (ha : 0xC2 ≤ a.toNat ∧ a.toNat ≤ 0xDF)
    (hb : 0x80 ≤ b.toNat ∧ b.toNat ≤ 0xBF) :
    unitsFrom none [a, b] =
      ([some (Char.ofNat ((a.toNat - 0xC0) * 64 + (b.toNat - 0x80)))], none) := by
  have h₁ : readOctet none a = _ := startOctet_two ha
  simp only [unitsFrom, h₁, readOctet_last _ hb]
  rfl

theorem unitsFrom_three {a b c : UInt8} (ha : 0xE0 ≤ a.toNat ∧ a.toNat ≤ 0xEF)
    (hb : 0x80 ≤ b.toNat ∧ b.toNat ≤ 0xBF) (hc : 0x80 ≤ c.toNat ∧ c.toNat ≤ 0xBF)
    (long : a.toNat = 0xE0 → 0xA0 ≤ b.toNat) (surrogate : a.toNat = 0xED → b.toNat ≤ 0x9F) :
    unitsFrom none [a, b, c] =
      ([some (Char.ofNat (((a.toNat - 0xE0) * 64 + (b.toNat - 0x80)) * 64 + (c.toNat - 0x80)))],
        none) := by
  have h₁ : readOctet none a = _ := startOctet_three ha
  have range : (if a.toNat = 0xE0 then 0xA0 else 0x80) ≤ b.toNat ∧
      b.toNat ≤ (if a.toNat = 0xED then 0x9F else 0xBF) :=
    ⟨by split <;> omega, by split <;> omega⟩
  have h₂ := readOctet_next (a.toNat - 0xE0) 0 range
  simp only [unitsFrom, h₁, h₂, readOctet_last _ hc]
  rfl

theorem unitsFrom_four {a b c d : UInt8} (ha : 0xF0 ≤ a.toNat ∧ a.toNat ≤ 0xF4)
    (hb : 0x80 ≤ b.toNat ∧ b.toNat ≤ 0xBF) (hc : 0x80 ≤ c.toNat ∧ c.toNat ≤ 0xBF)
    (hd : 0x80 ≤ d.toNat ∧ d.toNat ≤ 0xBF) (long : a.toNat = 0xF0 → 0x90 ≤ b.toNat)
    (large : a.toNat = 0xF4 → b.toNat ≤ 0x8F) :
    unitsFrom none [a, b, c, d] =
      ([some (Char.ofNat
        ((((a.toNat - 0xF0) * 64 + (b.toNat - 0x80)) * 64 + (c.toNat - 0x80)) * 64 +
          (d.toNat - 0x80)))], none) := by
  have h₁ : readOctet none a = _ := startOctet_four ha
  have range : (if a.toNat = 0xF0 then 0x90 else 0x80) ≤ b.toNat ∧
      b.toNat ≤ (if a.toNat = 0xF4 then 0x8F else 0xBF) :=
    ⟨by split <;> omega, by split <;> omega⟩
  have h₂ := readOctet_next (a.toNat - 0xF0) 1 range
  have h₃ := readOctet_next ((a.toNat - 0xF0) * 64 + (b.toNat - 0x80)) 0 hc
  simp only [unitsFrom, h₁, h₂, h₃, readOctet_last _ hd]
  rfl

theorem toNat_toUInt8 {n : Nat} (h : n < 256) : n.toUInt8.toNat = n := by
  rw [Nat.toUInt8, UInt8.toNat_ofNat', Nat.mod_eq_of_lt h]

theorem unitsFrom_encodeChar (c : Char) : unitsFrom none (encodeChar c) = ([some c], none) := by
  have hc := toNat_valid c
  have hofNat := Char.ofNat_toNat c
  unfold encodeChar
  generalize c.toNat = n at hc hofNat ⊢
  dsimp only
  -- The octets are named by their values, so that the ranges are facts about numbers.
  have octet (m : Nat) (hm : m < 256) : ∃ a : UInt8, m.toUInt8 = a ∧ a.toNat = m :=
    ⟨_, rfl, toNat_toUInt8 hm⟩
  split
  · obtain ⟨a, ha, ha'⟩ := octet n (by omega)
    rw [ha]
    simp only [unitsFrom, readOctet, startOctet_one (a := a) (by omega), ha', hofNat]
    rfl
  split
  · obtain ⟨a, ha, ha'⟩ := octet (0xC0 + n / 64) (by omega)
    obtain ⟨b, hb, hb'⟩ := octet (0x80 + n % 64) (by omega)
    have hn : (a.toNat - 0xC0) * 64 + (b.toNat - 0x80) = n := by omega
    rw [ha, hb, unitsFrom_two (by omega) (by omega), hn, hofNat]
  split
  · obtain ⟨a, ha, ha'⟩ := octet (0xE0 + n / 4096) (by omega)
    obtain ⟨b, hb, hb'⟩ := octet (0x80 + n / 64 % 64) (by omega)
    obtain ⟨c, hc, hc'⟩ := octet (0x80 + n % 64) (by omega)
    have hn : ((a.toNat - 0xE0) * 64 + (b.toNat - 0x80)) * 64 + (c.toNat - 0x80) = n := by omega
    rw [ha, hb, hc, unitsFrom_three (by omega) (by omega) (by omega) (by omega) (by omega), hn,
      hofNat]
  · obtain ⟨a, ha, ha'⟩ := octet (0xF0 + n / 262144) (by omega)
    obtain ⟨b, hb, hb'⟩ := octet (0x80 + n / 4096 % 64) (by omega)
    obtain ⟨c, hc, hc'⟩ := octet (0x80 + n / 64 % 64) (by omega)
    obtain ⟨d, hd, hd'⟩ := octet (0x80 + n % 64) (by omega)
    have hn : (((a.toNat - 0xF0) * 64 + (b.toNat - 0x80)) * 64 + (c.toNat - 0x80)) * 64 +
        (d.toNat - 0x80) = n := by
      omega
    rw [ha, hb, hc, hd, unitsFrom_four (by omega) (by omega) (by omega) (by omega) (by omega)
      (by omega), hn, hofNat]

/-- The first octet of a character goes on with no other one. -/
theorem encodeChar_leads (c : Char) :
    ∃ b s, encodeChar c = b :: s ∧ (b.toNat < 0x80 ∨ 0xC0 ≤ b.toNat) := by
  have hc := toNat_valid c
  unfold encodeChar
  dsimp only
  split
  · exact ⟨_, _, rfl, .inl (by rw [toNat_toUInt8] <;> omega)⟩
  split
  · exact ⟨_, _, rfl, .inr (by rw [toNat_toUInt8] <;> omega)⟩
  split
  · exact ⟨_, _, rfl, .inr (by rw [toNat_toUInt8] <;> omega)⟩
  · exact ⟨_, _, rfl, .inr (by rw [toNat_toUInt8] <;> omega)⟩

/-- Whatever is pending is cut off by a character, which is then read. -/
theorem unitsFrom_pending_encodeChar {p : Option Unfinished} {held : Octets} (hp : Pending p held)
    (c : Char) :
    unitsFrom p (encodeChar c) = (cutOff p ++ [some c], none) := by
  have h := unitsFrom_encodeChar c
  obtain ⟨b, s, hbs, hb⟩ := encodeChar_leads c
  rw [hbs] at h ⊢
  simp only [unitsFrom, readOctet_of_leads hp hb] at h ⊢
  have hstart : readOctet none b = startOctet b := rfl
  rw [hstart] at h
  obtain ⟨h₁, h₂⟩ := Prod.mk.inj h
  rw [List.append_assoc, h₁, h₂]

theorem encode_cons (c : Char) (s : List Char) : encode (c :: s) = encodeChar c ++ encode s := rfl

theorem unitsFrom_encode (s : List Char) : unitsFrom none (encode s) = (s.map some, none) := by
  induction s with
  | nil => rfl
  | cons c s ih =>
    rw [encode_cons, unitsFrom_append, unitsFrom_encodeChar, ih]
    rfl

/-- The octets of a text are well formed and read as that text. -/
theorem decode?_encode (s : List Char) : decode? (encode s) = some s := by
  have hunits : units (encode s) = s.map some := by
    rw [units_eq, unitsFrom_encode]
    simp [cutOff]
  have hall : s.mapM some = some (s.map id) := List.mapM_pure
  rw [decode?, hunits, List.mapM_map]
  simpa using hall

theorem eq_map_some_of_mapM_id {α : Type} {l : List (Option α)} {t : List α}
    (h : l.mapM id = some t) : l = t.map some := by
  induction l generalizing t with
  | nil =>
    obtain rfl : [] = t := by simpa using h
    rfl
  | cons a l ih =>
    simp only [List.mapM_cons, id_eq, bind, Option.bind_eq_some_iff, pure, Option.some.injEq] at h
    obtain ⟨x, rfl, xs, hxs, rfl⟩ := h
    rw [ih hxs, List.map_cons]

theorem Reads.eq_encode {t : List Char} {s : Octets} (h : Reads (t.map some) s) :
    s = encode t := by
  induction t generalizing s with
  | nil =>
    cases h
    rfl
  | cons c t ih =>
    cases h with
    | char _ rest => rw [encode_cons, ← ih rest]

/-- Octets that are well formed are those of the text that they are read as. -/
theorem decode?_eq_some_iff {s : Octets} {t : List Char} :
    decode? s = some t ↔ s = encode t := by
  constructor
  · intro h
    have hreads := reads_units s
    rw [eq_map_some_of_mapM_id h] at hreads
    exact hreads.eq_encode
  · rintro rfl
    exact decode?_encode t

/-- Where nothing is malformed, nothing is replaced. -/
theorem decodeLossy_of_decode? {s : Octets} {t : List Char} (h : decode? s = some t) :
    decodeLossy s = t := by
  rw [decodeLossy, eq_map_some_of_mapM_id h, List.map_map]
  exact List.map_id t

/-- A text is read where its octets stand, and what stands around them is read as if it stood
alone. -/
theorem units_append_encode (before after : Octets) {p : List Char} (hp : p ≠ []) :
    units (before ++ (encode p ++ after)) = units before ++ (p.map some ++ units after) := by
  obtain ⟨c, p, rfl⟩ := List.exists_cons_of_ne_nil hp
  obtain ⟨-, left, -, hleft, -⟩ := unitsFrom_advances pending_none before
  have hread : unitsFrom (unitsFrom none before).2 (encode (c :: p)) =
      (cutOff (unitsFrom none before).2 ++ (c :: p).map some, none) := by
    rw [encode_cons, unitsFrom_append, unitsFrom_pending_encodeChar hleft, unitsFrom_encode]
    simp
  rw [units_eq, units_eq before, units_eq after, unitsFrom_append, unitsFrom_append, hread]
  simp only [List.append_assoc]

theorem decodeLossy_append_encode (before after : Octets) {p : List Char} (hp : p ≠ []) :
    decodeLossy (before ++ (encode p ++ after)) =
      decodeLossy before ++ (p ++ decodeLossy after) := by
  have hmap : (p.map some).map (fun u : Option Char => u.getD '\uFFFD') = p := by
    rw [List.map_map]
    exact List.map_id _
  unfold decodeLossy
  rw [units_append_encode before after hp, List.map_append, List.map_append, hmap]

/-- Octets are well formed when nothing in them is malformed. -/
theorem decode?_eq_none_iff {s : Octets} : decode? s = none ↔ none ∈ units s := by
  rw [decode?]
  induction units s with
  | nil => simp
  | cons u us ih =>
    rw [List.mapM_cons]
    cases u with
    | none => simp
    | some c =>
      rw [List.mem_cons, or_iff_right nofun, ← ih]
      cases us.mapM id <;> simp

/-- Around a text, what stands before and behind is well formed or not on its own. -/
theorem decode?_append_encode_eq_none_iff (before after : Octets) {p : List Char} (hp : p ≠ []) :
    decode? (before ++ (encode p ++ after)) = none ↔
      decode? before = none ∨ decode? after = none := by
  simp [decode?_eq_none_iff, units_append_encode before after hp]

/-- **A text is read where its octets stand.** -/
theorem infix_decodeLossy_of_infix {p : List Char} {b : Octets} (h : encode p <:+: b) :
    p <:+: decodeLossy b := by
  by_cases hp : p = []
  · rw [hp]
    exact List.nil_infix
  · obtain ⟨before, after, rfl⟩ := h
    rw [List.append_assoc, decodeLossy_append_encode before after hp]
    exact List.infix_append' ..

/-! ## Nothing else is read -/

theorem Reads.encode_starts {us : List (Option Char)} {s : Octets} (h : Reads us s) {p : List Char}
    (hp : '\uFFFD' ∉ p) (hus : p <+: us.map (·.getD '\uFFFD')) : encode p <+: s := by
  induction h generalizing p with
  | nil =>
    rw [List.map_nil, List.prefix_nil] at hus
    rw [hus]
    exact List.nil_prefix
  | char c rest ih =>
    cases p with
    | nil => exact List.nil_prefix
    | cons d p =>
      rw [List.map_cons, List.cons_prefix_cons] at hus
      obtain ⟨rfl, htail⟩ := hus
      rw [encode_cons]
      exact List.prefix_append_right_inj _ |>.2
        (ih (fun hmem => hp (List.mem_cons_of_mem _ hmem)) htail)
  | broken run rest ih =>
    cases p with
    | nil => exact List.nil_prefix
    | cons d p =>
      -- A broken run is read as U+FFFD, which the text does not have.
      rw [List.map_cons, List.cons_prefix_cons] at hus
      exact absurd (hus.1 ▸ List.mem_cons_self) hp

theorem Reads.encode_stands {us : List (Option Char)} {s : Octets} (h : Reads us s) {p : List Char}
    (hp : '\uFFFD' ∉ p) (hus : p <:+: us.map (·.getD '\uFFFD')) : encode p <:+: s := by
  induction h with
  | nil =>
    rw [List.map_nil, List.infix_nil] at hus
    rw [hus]
    exact List.nil_infix
  | char c rest ih =>
    rw [List.map_cons, List.infix_cons_iff] at hus
    rcases hus with hprefix | hinfix
    · exact ((Reads.char c rest).encode_starts hp hprefix).isInfix
    · exact (ih hinfix).trans (List.suffix_append _ _).isInfix
  | broken run rest ih =>
    rw [List.map_cons, List.infix_cons_iff] at hus
    rcases hus with hprefix | hinfix
    · exact ((Reads.broken run rest).encode_starts hp hprefix).isInfix
    · exact (ih hinfix).trans (List.suffix_append _ _).isInfix

/-- **A text without U+FFFD is read just where its octets stand.** -/
theorem infix_decodeLossy_iff {p : List Char} (hp : '\uFFFD' ∉ p) (b : Octets) :
    p <:+: decodeLossy b ↔ encode p <:+: b :=
  ⟨(reads_units b).encode_stands hp, infix_decodeLossy_of_infix⟩

end CommitGate.Text

namespace CommitGate.RawText

/-! ## Raw texts -/

theorem text?_eq_some_iff {r : RawText} {s : String} : r.text? = some s ↔ r = ofString s := by
  rw [text?, Option.map_eq_some_iff]
  constructor
  · rintro ⟨t, ht, rfl⟩
    rw [ofString, String.toList_ofList]
    exact RawText.ext (Text.decode?_eq_some_iff.1 ht)
  · rintro rfl
    exact ⟨s.toList, Text.decode?_encode _, String.ofList_toList⟩

theorem shown_ofString (s : String) : (ofString s).shown = s := by
  rw [shown, ofString, Text.decodeLossy_of_decode? (Text.decode?_encode _), String.ofList_toList]

end CommitGate.RawText

namespace CommitGate.Path

theorem text?_eq_some_iff {p : Path} {s : String} : p.text? = some s ↔ p = ⟨s⟩ := by
  rw [text?, RawText.text?_eq_some_iff, Path.ext_iff]

/-- A path that is a text is shown as that text. -/
theorem text?_eq_shown {p : Path} (h : p.text?.isSome) : p.text? = some p.shown := by
  obtain ⟨s, hs⟩ := Option.isSome_iff_exists.1 h
  rw [hs, text?_eq_some_iff.1 hs, shown, RawText.shown_ofString]

theorem text?_eq_none_iff {p : Path} : p.text? = none ↔ Text.decode? p.spelling.octets = none := by
  rw [text?, RawText.text?, Option.map_eq_none_iff]

end CommitGate.Path

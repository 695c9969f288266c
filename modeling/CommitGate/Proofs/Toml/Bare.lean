import CommitGate.Config.Basic
import CommitGate.Toml.Bare
import Mathlib.Data.List.TakeWhile

/-!
# Bare values are read back

A word of digits could be a date, a time, a float or an integer. It is no date or time without a
sign between the numbers and no float without a point or an exponent, so the digits of a number are
read as an integer.

Results:

* `readBare_word`: a word is read up to the end of its line.
* `ofWord?_digitsOfNat`: the digits of a number that fits are read as this number.
-/

namespace CommitGate.Toml

open Text (digitsOfNat)

/-! ## Digits -/

/-- A text of decimal digits. -/
def Digits (s : List Char) : Prop :=
  ∀ c ∈ s, c.isDigit = true

theorem digits_digitsOfNat (n : Nat) : Digits (digitsOfNat n) :=
  fun _ hc => Text.isDigit_of_mem_digitsOfNat hc

theorem Digits.ne {s : List Char} (h : Digits s) {c d : Char} (hc : c ∈ s)
    (hd : d.isDigit = false) : c ≠ d := by
  rintro rfl
  rw [h c hc] at hd
  cases hd

theorem Digits.drop {s : List Char} (h : Digits s) (n : Nat) : Digits (s.drop n) :=
  fun c hc => h c (List.mem_of_mem_drop hc)

theorem head?_toDigits {n : Nat} (hn : n ≠ 0) : (Nat.toDigits 10 n).head? ≠ some '0' := by
  induction n using Nat.strongRecOn with
  | ind n ih =>
    by_cases h : n < 10
    · rw [Nat.toDigits_of_lt_base h]
      have hdigit : ∀ m < 10, m ≠ 0 → m.digitChar ≠ '0' := by decide
      exact fun h0 => hdigit n h hn (Option.some.inj h0)
    · have hhead := ih (n / 10) (by omega) (by omega)
      rw [Nat.toDigits_of_base_le (by omega) (by omega)]
      cases hdigits : Nat.toDigits 10 (n / 10) with
      | nil => exact absurd hdigits Nat.toDigits_ne_nil
      | cons c s =>
        rw [hdigits] at hhead
        exact hhead

theorem valueOf_digits {s : List Char} (h : Digits s) : valueOf 10 s = Nat.ofDigitChars 10 s 0 := by
  have hfold (m : Nat) : s.foldl (fun n c => n * 10 + (Text.hexValue? c).getD 0) m =
      Nat.ofDigitChars 10 s m := by
    induction s generalizing m with
    | nil => rfl
    | cons c s ih =>
      have hc : Text.hexValue? c = some (c.toNat - '0'.toNat) := by
        rw [Text.hexValue?, if_pos (h c List.mem_cons_self)]
        rfl
      rw [List.foldl_cons, Nat.ofDigitChars_cons, hc, Option.getD_some, Nat.mul_comm m 10]
      exact ih (fun d hd => h d (List.mem_cons_of_mem c hd)) _
  exact hfold 0

theorem valueOf_digitsOfNat (n : Nat) : valueOf 10 (digitsOfNat n) = n := by
  rw [valueOf_digits (digits_digitsOfNat n)]
  exact Nat.ofDigitChars_ten_toDigits

/-! ## Digits are no date, no time and no float -/

theorem Digits.after? {s : List Char} (h : Digits s) {c : Char} (hc : c.isDigit = false) :
    after? c s = none := by
  cases s with
  | nil => rfl
  | cons d s =>
    rw [Toml.after?, if_neg (h.ne List.mem_cons_self hc)]

theorem takeNumber?_eq_some {n v : Nat} {s r : List Char} (h : takeNumber? n s = some (v, r)) :
    r = s.drop n := by
  unfold takeNumber? at h
  dsimp only at h
  split at h <;> cases h
  rfl

theorem Digits.afterDate? {s : List Char} (h : Digits s) : afterDate? s = none := by
  unfold Toml.afterDate?
  cases hyear : takeNumber? 4 s with
  | none => rfl
  | some x =>
    obtain ⟨year, r⟩ := x
    obtain rfl := takeNumber?_eq_some hyear
    have hsign := (h.drop 4).after? (c := '-') (by decide)
    simp [hsign]

theorem Digits.afterMinute? {s : List Char} (h : Digits s) : afterMinute? s = none := by
  unfold Toml.afterMinute?
  cases hhour : takeNumber? 2 s with
  | none => rfl
  | some x =>
    obtain ⟨hour, r⟩ := x
    obtain rfl := takeNumber?_eq_some hhour
    have hsign := (h.drop 2).after? (c := ':') (by decide)
    simp [hsign]

theorem Digits.isMoment {s : List Char} (h : Digits s) : isMoment s = false := by
  have htime : afterTime? s = none := by
    unfold afterTime?
    simp [h.afterMinute?]
  have hboth : isDateTime ['T', 't'] s = false := by
    unfold isDateTime
    rw [h.afterDate?]
  simp [Toml.isMoment, h.afterDate?, htime, hboth]

theorem Digits.signed {s : List Char} (h : Digits s) : signed s = (1, s) := by
  unfold Toml.signed
  split
  · exact absurd rfl (h.ne List.mem_cons_self (d := '-') (by decide))
  · exact absurd rfl (h.ne List.mem_cons_self (d := '+') (by decide))
  · rfl

theorem Digits.isFloat {s : List Char} (h : Digits s) : isFloat s = false := by
  have hdrop : s.dropWhile isDigitOrGap = [] := by
    rw [List.dropWhile_eq_nil_iff]
    intro c hc
    simp [isDigitOrGap, h c hc]
  have hparts : floatParts? s = none := by
    unfold floatParts?
    rw [h.signed]
    simp only [hdrop]
    cases decimal? (s.takeWhile isDigitOrGap) <;> rfl
  have hinf : s ≠ ['i', 'n', 'f'] := by
    rintro rfl
    exact absurd (h 'i' List.mem_cons_self) (by decide)
  have hnan : s ≠ ['n', 'a', 'n'] := by
    rintro rfl
    exact absurd (h 'n' List.mem_cons_self) (by decide)
  simp [Toml.isFloat, h.signed, hparts, hinf, hnan]

/-! ## Integers -/

theorem grouped?_digits {s : List Char} (h : Digits s) (hne : s ≠ []) :
    grouped? Char.isDigit s = some s := by
  have hgap : Text.occursIn ['_'] s = false := by
    rw [Bool.eq_false_iff]
    intro hocc
    have hmem : '_' ∈ s := (Text.occursIn_iff_isInfix _ _).1 hocc |>.subset List.mem_cons_self
    exact absurd (h '_' hmem) (by decide)
  unfold grouped?
  rw [Text.splitOn_of_not_occursIn hgap]
  have hall : [s].all (fun g => g ≠ [] ∧ g.all Char.isDigit) = true := by
    simp only [List.all_cons, List.all_nil, Bool.and_true, decide_eq_true_eq]
    exact ⟨hne, List.all_eq_true.2 h⟩
  rw [if_pos hall]
  simp

theorem decimal?_digitsOfNat (n : Nat) : decimal? (digitsOfNat n) = some (digitsOfNat n) := by
  unfold decimal?
  rw [grouped?_digits (digits_digitsOfNat n) Nat.toDigits_ne_nil]
  by_cases h0 : n = 0
  · rw [h0]
    rfl
  · have hhead : (digitsOfNat n).head? ≠ some '0' := head?_toDigits h0
    simp [hhead]

theorem fits?_natCast {n : Nat} (h : n < integerBound) : fits? (n : Int) = some (n : Int) := by
  have hlow : -(integerBound : Int) ≤ (n : Int) :=
    Int.le_trans (Int.neg_nonpos_of_nonneg (Int.natCast_nonneg _)) (Int.natCast_nonneg n)
  exact fits?_eq_some_iff.2 ⟨rfl, hlow, Int.ofNat_lt.2 h⟩

theorem integer?_digits {s : List Char} (h : Digits s) :
    integer? s = (decimal? s).bind fun ds => fits? (1 * (valueOf 10 ds : Int)) := by
  have hsecond {c : Char} {r : List Char} (hs : s = '0' :: c :: r) : c.isDigit = true :=
    h c (by rw [hs]; simp)
  have hsigned := h.signed
  unfold integer?
  split
  · exact absurd (hsecond rfl) (by decide)
  · exact absurd (hsecond rfl) (by decide)
  · exact absurd (hsecond rfl) (by decide)
  · rw [hsigned]
    rfl

theorem integer?_digitsOfNat {n : Nat} (h : n < integerBound) :
    integer? (digitsOfNat n) = some (n : Int) := by
  rw [integer?_digits (digits_digitsOfNat n), decimal?_digitsOfNat, Option.bind_some,
    valueOf_digitsOfNat, Int.one_mul]
  exact fits?_natCast h

/-! ## Words -/

/-- The digits of a number that fits are read as this number. -/
theorem ofWord?_digitsOfNat {n : Nat} (h : n < integerBound) :
    Bare.ofWord? (digitsOfNat n) = some (.integer n) := by
  have hdigits := digits_digitsOfNat n
  have htrue : digitsOfNat n ≠ "true".toList := by
    intro hs
    exact absurd (hdigits 't' (by rw [hs]; decide)) (by decide)
  have hfalse : digitsOfNat n ≠ "false".toList := by
    intro hs
    exact absurd (hdigits 'f' (by rw [hs]; decide)) (by decide)
  unfold Bare.ofWord?
  rw [if_neg htrue, if_neg hfalse, hdigits.isMoment, hdigits.isFloat, integer?_digitsOfNat h]
  rfl

theorem ofWord?_boolean (b : Bool) :
    Bare.ofWord? (if b then "true" else "false").toList = some (.boolean b) := by
  cases b <;> rfl

/-- A word is read up to the end of its line. -/
theorem readBare_word {s : List Char} (h : ∀ c ∈ s, isWordChar c = true) (r : List Char) :
    readBare (s ++ '\n' :: r) = (Bare.ofWord? s).map (·, '\n' :: r) := by
  have hstop : isWordChar '\n' = false := by decide
  have htake : (s ++ '\n' :: r).takeWhile isWordChar = s := by
    rw [List.takeWhile_append_of_pos h, List.takeWhile_cons_of_neg (by simp [hstop]),
      List.append_nil]
  have hdrop : (s ++ '\n' :: r).dropWhile isWordChar = '\n' :: r := by
    rw [List.dropWhile_append_of_pos h, List.dropWhile_cons_of_neg (by simp [hstop])]
  unfold readBare
  simp only [htake, hdrop]
  rfl

end CommitGate.Toml

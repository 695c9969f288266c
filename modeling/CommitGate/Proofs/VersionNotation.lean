import CommitGate.Proofs.Pieces
import CommitGate.Proofs.VersionSearch
import Mathlib.Data.List.Forall2

/-!
# The notations of a version

A version is known in three notations. It is written with all its components; it is read from a
configuration, where components may be missing and a plus sign may stand in front of each; and it is
looked for in what a tool prints. A required version comes by the second way and a found one by the
third, and they are compared: so the ways have to agree wherever a text can go both.

Results:

* `isCut_iff`: every text is cut into parts in one way.
* `component?_eq_some_iff`: which parts are numbers.
* `judged_ofComponents`, `Judged.unique`: the parts decide whether there is a version, and which one
  of them is to blame if there is none.
* `find?_between`: a version that is written in a text is found in it.
* `find?_of_spells`: a configured version with a point is found in its own text.
* `notations_agree`: the three notations agree.
-/

namespace CommitGate.Version

open Text (isBlank isDecimalDigit)

/-- The components from left to right. -/
def components (v : Version) : List Nat :=
  [v.major, v.minor, v.patch]

/-- Every component stays below the bound. -/
def Bounded (v : Version) : Prop :=
  ∀ n ∈ v.components, n < bound

/-! ## The parts of a text -/

/-- The parts of a text: what stands between its blank ends, cut at the points. -/
def IsCut (s : List Char) (parts : List (List Char)) : Prop :=
  parts ≠ [] ∧ (∀ p ∈ parts, '.' ∉ p) ∧
    ∃ front back, s = front ++ (['.'].intercalate parts ++ back) ∧
      (∀ c ∈ front, isBlank c = true) ∧ (∀ c ∈ back, isBlank c = true) ∧
      (∀ c ∈ (['.'].intercalate parts).head?, isBlank c = false) ∧
      ∀ c ∈ (['.'].intercalate parts).getLast?, isBlank c = false

/-- A part and its number: ASCII digits with a value that fits, with or without a plus sign in
front. -/
def IsPart (p : List Char) (n : Nat) : Prop :=
  ∃ digits, (p = digits ∨ p = '+' :: digits) ∧ digits ≠ [] ∧ HasValue digits n

/-- The version that the parts spell from left to right: what is missing is zero. -/
def Spells (parts : List (List Char)) (v : Version) : Prop :=
  ∃ values zeros, List.Forall₂ IsPart parts values ∧ v.components = values ++ zeros ∧
    ∀ n ∈ zeros, n = 0

/-- The part at a position is no number, and those before it are. -/
def FirstBad (parts : List (List Char)) (i : Nat) : Prop :=
  ∃ p, parts[i]? = some p ∧ (¬ ∃ n, IsPart p n) ∧ ∀ q ∈ parts.take i, ∃ n, IsPart q n

/-- What is said of a text with these parts: the version that they spell, or the name of the first
bad one, or that there are too many when the first three are good. -/
inductive Judged (s : String) (parts : List (List Char)) : Except String Version → Prop where
  | version {v : Version} (h : Spells parts v) : Judged s parts (.ok v)
  | invalid {i : Nat} {name : String} (h : FirstBad parts i)
      (named : ["major", "minor", "patch"][i]? = some name) :
      Judged s parts (.error ("Invalid " ++ name ++ " version component in '" ++ s ++ "'"))
  | tooMany (h : 3 < parts.length) (good : ∀ p ∈ parts.take 3, ∃ n, IsPart p n) :
      Judged s parts (.error ("Too many version components in '" ++ s ++ "'"))

variable {s : String} {t p : List Char} {parts : List (List Char)} {v w : Version}

/-- **Every text is cut into parts in one way.** -/
theorem isCut_iff : IsCut t parts ↔ Text.splitOn ['.'] (Text.trimmed t) = parts := by
  rw [Text.splitOn_singleton_iff, eq_comm, Text.trimmed_eq_iff]
  rfl

/-- **Which parts are numbers.** -/
theorem component?_eq_some_iff {n : Nat} : component? p = some n ↔ IsPart p n := by
  have hdigits : ∀ digits : List Char,
      (if digits ≠ [] ∧ digits.all Char.isDigit = true ∧ Text.natOfDigits 10 digits < bound then
        some (Text.natOfDigits 10 digits) else none) = some n ↔
      digits ≠ [] ∧ HasValue digits n := by
    intro digits
    rw [Option.ite_none_right_eq_some, HasValue, List.all_eq_true, Option.some.injEq]
    constructor
    · rintro ⟨⟨hne, hall, hlt⟩, rfl⟩
      exact ⟨hne, hall, rfl, hlt⟩
    · rintro ⟨hne, hall, rfl, hlt⟩
      exact ⟨⟨hne, hall, hlt⟩, rfl⟩
  rw [component?, Text.natBelow?, hdigits]
  constructor
  · intro h
    by_cases hplus : p.head? = some '+'
    · obtain ⟨digits, rfl⟩ := List.head?_eq_some_iff.1 hplus
      exact ⟨digits, .inr rfl, h⟩
    · rw [if_neg hplus] at h
      exact ⟨p, .inl rfl, h⟩
  · rintro ⟨digits, rfl | rfl, hne, hvalue⟩
    · have hplus : p.head? ≠ some '+' := by
        intro hhead
        exact absurd (hvalue.1 '+' (List.mem_of_mem_head? hhead)) (by decide)
      rw [if_neg hplus]
      exact ⟨hne, hvalue⟩
    · exact ⟨hne, hvalue⟩

theorem component?_eq_none_iff : component? p = none ↔ ¬ ∃ n, IsPart p n := by
  simp only [← component?_eq_some_iff, ← Option.isSome_iff_exists, Option.not_isSome_iff_eq_none]

theorem IsPart.unique {m n : Nat} (hm : IsPart p m) (hn : IsPart p n) : m = n := by
  rw [← component?_eq_some_iff] at hm hn
  exact Option.some.inj (hm.symm.trans hn)

/-! ## What is said of the parts -/

theorem message_named (s : String) {i : Nat} {fault : Fault} {name : String}
    (hfault : [Fault.major, .minor, .patch][i]? = some fault)
    (hname : ["major", "minor", "patch"][i]? = some name) :
    fault.message s = "Invalid " ++ name ++ " version component in '" ++ s ++ "'" := by
  match i with
  | 0 => cases hfault; cases hname; rfl
  | 1 => cases hfault; cases hname; rfl
  | 2 => cases hfault; cases hname; rfl

/-- A part that is no number behind good ones is the one that is named. -/
theorem judged_of_bad (s : String) (before : List (List Char)) {rest : List (List Char)}
    {fault : Fault} {name : String} (hgood : ∀ q ∈ before, ∃ n, component? q = some n)
    (hbad : component? p = none)
    (hfault : [Fault.major, .minor, .patch][before.length]? = some fault)
    (hname : ["major", "minor", "patch"][before.length]? = some name) :
    Judged s (before ++ p :: rest) (.error (fault.message s)) := by
  rw [message_named s hfault hname]
  refine .invalid ⟨p, by simp, component?_eq_none_iff.1 hbad, fun q hq => ?_⟩ hname
  rw [List.take_left] at hq
  obtain ⟨n, hn⟩ := hgood q hq
  exact ⟨n, component?_eq_some_iff.1 hn⟩

/-- **The parts decide.** They are looked at from left to right, and a fourth one only when the
first three are good. -/
theorem judged_ofComponents (s : String) (hne : parts ≠ []) :
    Judged s parts ((ofComponents parts).mapError (Fault.message s)) := by
  obtain ⟨a, r, rfl⟩ := List.exists_cons_of_ne_nil hne
  cases ha : component? a with
  | none =>
    have hresult : ofComponents (a :: r) = .error .major := by
      simp [ofComponents, ha, bind, Except.bind]
    rw [hresult]
    exact judged_of_bad s [] (by simp) ha rfl rfl
  | some x =>
  cases r with
  | nil =>
    have hresult : ofComponents [a] = .ok ⟨x, 0, 0⟩ := by
      simp [ofComponents, ha, bind, Except.bind]
    rw [hresult]
    exact .version ⟨[x], [0, 0], .cons (component?_eq_some_iff.1 ha) .nil, rfl, by simp⟩
  | cons b r =>
  cases hb : component? b with
  | none =>
    have hresult : ofComponents (a :: b :: r) = .error .minor := by
      simp [ofComponents, ha, hb, bind, Except.bind]
    rw [hresult]
    exact judged_of_bad s [a] (by simp [ha]) hb rfl rfl
  | some y =>
  cases r with
  | nil =>
    have hresult : ofComponents [a, b] = .ok ⟨x, y, 0⟩ := by
      simp [ofComponents, ha, hb, bind, Except.bind]
    rw [hresult]
    exact .version ⟨[x, y], [0], .cons (component?_eq_some_iff.1 ha)
      (.cons (component?_eq_some_iff.1 hb) .nil), rfl, by simp⟩
  | cons c r =>
  cases hc : component? c with
  | none =>
    have hresult : ofComponents (a :: b :: c :: r) = .error .patch := by
      simp [ofComponents, ha, hb, hc, bind, Except.bind]
    rw [hresult]
    exact judged_of_bad s [a, b] (by simp [ha, hb]) hc rfl rfl
  | some z =>
  cases r with
  | nil =>
    have hresult : ofComponents [a, b, c] = .ok ⟨x, y, z⟩ := by
      simp [ofComponents, ha, hb, hc, bind, Except.bind]
    rw [hresult]
    exact .version ⟨[x, y, z], [], .cons (component?_eq_some_iff.1 ha)
      (.cons (component?_eq_some_iff.1 hb) (.cons (component?_eq_some_iff.1 hc) .nil)), rfl,
      by simp⟩
  | cons d r =>
    have hresult : ofComponents (a :: b :: c :: d :: r) = .error .tooMany := by
      simp [ofComponents, ha, hb, hc, bind, Except.bind]
    rw [hresult]
    have hgood : ∀ q ∈ [a, b, c], ∃ n, component? q = some n := by simp [ha, hb, hc]
    refine .tooMany (by simp) fun q hq => ?_
    obtain ⟨n, hn⟩ := hgood q hq
    exact ⟨n, component?_eq_some_iff.1 hn⟩

theorem Spells.length_le (h : Spells parts v) : parts.length ≤ 3 := by
  obtain ⟨values, zeros, hvalues, hv, -⟩ := h
  have hlength := congrArg List.length hv
  rw [List.length_append, ← hvalues.length_eq] at hlength
  simp only [components, List.length_cons, List.length_nil] at hlength
  omega

theorem Spells.good (h : Spells parts v) : ∀ p ∈ parts, ∃ n, IsPart p n := by
  obtain ⟨values, zeros, hvalues, -, -⟩ := h
  intro p hp
  induction hvalues with
  | nil => exact absurd hp List.not_mem_nil
  | cons hpart _ ih =>
    rcases List.mem_cons.1 hp with rfl | hp
    · exact ⟨_, hpart⟩
    · exact ih hp

theorem Spells.unique (hv : Spells parts v) (hw : Spells parts w) : v = w := by
  obtain ⟨values, zeros, hvalues, hv, hzeros⟩ := hv
  obtain ⟨values', zeros', hvalues', hw, hzeros'⟩ := hw
  obtain rfl : values = values' :=
    List.right_unique_forall₂' (fun _ _ _ hm hn => hm.unique hn) hvalues hvalues'
  have hlength : zeros.length = zeros'.length := by
    have hv := congrArg List.length hv
    have hw := congrArg List.length hw
    simp only [components, List.length_cons, List.length_nil, List.length_append] at hv hw
    omega
  have hcomponents : v.components = w.components := by
    rw [hv, hw, List.eq_replicate_of_mem hzeros, List.eq_replicate_of_mem hzeros', hlength]
  cases v
  cases w
  simpa [components] using hcomponents

theorem FirstBad.unique {i j : Nat} (hi : FirstBad parts i) (hj : FirstBad parts j) : i = j := by
  obtain ⟨p, hp, hbad, hgood⟩ := hi
  obtain ⟨q, hq, hbad', hgood'⟩ := hj
  rcases Nat.lt_trichotomy i j with hlt | heq | hgt
  · exact absurd (hgood' p (List.mem_of_getElem? (by rw [List.getElem?_take_of_lt hlt, hp]))) hbad
  · exact heq
  · exact absurd (hgood q (List.mem_of_getElem? (by rw [List.getElem?_take_of_lt hgt, hq]))) hbad'

/-- Only one thing can be said. -/
theorem Judged.unique {r r' : Except String Version} (h : Judged s parts r)
    (h' : Judged s parts r') : r = r' := by
  have hspells : ∀ {v i}, Spells parts v → ¬ FirstBad parts i := by
    rintro v i hv ⟨p, hp, hbad, -⟩
    exact hbad (hv.good p (List.mem_of_getElem? hp))
  have hfew : ∀ {v}, Spells parts v → ¬ 3 < parts.length := fun hv => Nat.not_lt.2 hv.length_le
  have hmany : ∀ {i name}, FirstBad parts i → ["major", "minor", "patch"][i]? = some name →
      ¬ ∀ q ∈ parts.take 3, ∃ n, IsPart q n := by
    rintro i name ⟨p, hp, hbad, -⟩ hname hgood
    have hi : i < 3 := (List.getElem?_eq_some_iff.1 hname).1
    exact hbad (hgood p (List.mem_of_getElem? (by rw [List.getElem?_take_of_lt hi, hp])))
  cases h with
  | version hv =>
    cases h' with
    | version hw => rw [hv.unique hw]
    | invalid hbad => exact absurd hbad (hspells hv)
    | tooMany h => exact absurd h (hfew hv)
  | invalid hbad named =>
    cases h' with
    | version hw => exact absurd hbad (hspells hw)
    | invalid hbad' named' =>
      obtain rfl := hbad.unique hbad'
      rw [Option.some.inj (named.symm.trans named')]
    | tooMany _ good => exact absurd good (hmany hbad named)
  | tooMany h good =>
    cases h' with
    | version hw => exact absurd h (hfew hw)
    | invalid hbad named => exact absurd good (hmany hbad named)
    | tooMany => rfl

/-! ## A version in a text -/

/-- No digit is directly followed by a point. -/
def Unpointed (t : List Char) : Prop :=
  ∀ before c after, t = before ++ c :: '.' :: after → ¬ isDecimalDigit c = true

/-- Digits behind a text in which no digit is followed by a point show no version with it. -/
theorem not_shown_append {before run : List Char} (hbefore : Unpointed before)
    (hrun : ∀ c ∈ run, isDecimalDigit c = true) : ¬ Shown (before ++ run) := by
  rintro ⟨x, c, d, y, heq, hc, -⟩
  have hcut : before ++ run = (x ++ [c, '.']) ++ (d :: y) := by simpa using heq
  rcases List.append_eq_append_iff.1 hcut with ⟨t, hx, ht⟩ | ⟨t, rfl, -⟩
  · rcases List.eq_nil_or_concat t with rfl | ⟨u, e, rfl⟩
    · refine hbefore x c [] ?_ hc
      simpa using hx.symm
    · -- the point would stand among the digits
      have he : e = '.' := by
        have := congrArg List.getLast? hx
        simpa [← List.append_assoc] using this.symm
      exact point_not_digit (hrun '.' (by rw [ht, he]; simp))
  · exact hbefore x c t (by simp) hc

theorem isDecimalDigit_of_mem_digitsOfNat {n : Nat} {c : Char} (h : c ∈ Text.digitsOfNat n) :
    isDecimalDigit c = true :=
  Text.isDecimalDigit_of_isDigit (Text.isDigit_of_mem_digitsOfNat h)

theorem hasValue_digitsOfNat {n : Nat} (h : n < bound) : HasValue (Text.digitsOfNat n) n :=
  ⟨fun _ hc => Text.isDigit_of_mem_digitsOfNat hc, Text.natOfDigits_digitsOfNat n, h⟩

theorem HasValue.isRun {run rest : List Char} {n : Nat} (h : HasValue run n) (hne : run ≠ [])
    (hrest : ∀ c ∈ rest.head?, ¬ isDecimalDigit c = true) : IsRun run rest :=
  ⟨hne, fun c hc => Text.isDecimalDigit_of_isDigit (h.1 c hc), hrest⟩

/-- No blank character is a digit: the digits of all scripts lie between the blanks. -/
theorem not_isDecimalDigit_of_isBlank {c : Char} (h : isBlank c = true) :
    ¬ isDecimalDigit c = true := by
  have hzeros : ∀ z ∈ Text.decimalZeros,
      z = 0x30 ∨ 0xA1 ≤ z ∧ z + 10 ≤ 0x1680 ∨ 0x1681 ≤ z ∧ z + 10 ≤ 0x2000 ∨ 0x3001 ≤ z := by
    decide
  intro hdigit
  obtain ⟨z, hz, hrange⟩ := List.any_eq_true.1 hdigit
  simp only [Bool.and_eq_true, decide_eq_true_eq] at hrange
  simp only [isBlank, Bool.or_eq_true, Bool.and_eq_true, decide_eq_true_eq, beq_iff_eq] at h
  have hz := hzeros z hz
  omega

section Runs

variable {before a b rest : List Char} {c : Option (List Char)} {m n : Nat}

/-- Runs with values are the first ones where nothing before them shows a version. -/
theorem firstRuns_of_values (hbefore : Unpointed before)
    (hlast : ∀ x ∈ before.getLast?, ¬ isDecimalDigit x = true) (ha : a ≠ []) (hm : HasValue a m)
    (hb : b ≠ []) (hn : HasValue b n) (hrest : ∀ x ∈ rest.head?, ¬ isDecimalDigit x = true)
    (hthird : PointRun rest c) : FirstRuns (before ++ (a ++ '.' :: (b ++ rest))) a b c := by
  have hrun : IsRun a ('.' :: (b ++ rest)) := hm.isRun ha (by simpa using point_not_digit)
  exact ⟨before, rest, rfl, hlast, hrun, not_shown_append hbefore hrun.digits, hn.isRun hb hrest,
    hthird⟩

end Runs

/-- **A version that is written in a text is found in it**, when neither what stands before it nor
what stands behind it could belong to it. -/
theorem find?_between (hv : v.Bounded) {before after : List Char} (hbefore : Unpointed before)
    (hlast : ∀ c ∈ before.getLast?, ¬ isDecimalDigit c = true)
    (hafter : ∀ c ∈ after.head?, ¬ isDecimalDigit c = true) :
    find? (before ++ v.format ++ after) = some v := by
  have hmajor := hasValue_digitsOfNat (hv v.major (by simp [components]))
  have hminor := hasValue_digitsOfNat (hv v.minor (by simp [components]))
  have hpatch := hasValue_digitsOfNat (hv v.patch (by simp [components]))
  have hruns : FirstRuns (before ++ v.format ++ after) (Text.digitsOfNat v.major)
      (Text.digitsOfNat v.minor) (some (Text.digitsOfNat v.patch)) := by
    have hcut : before ++ v.format ++ after = before ++ (Text.digitsOfNat v.major ++
        '.' :: (Text.digitsOfNat v.minor ++ '.' :: (Text.digitsOfNat v.patch ++ after))) := by
      simp [format]
    rw [hcut]
    exact firstRuns_of_values hbefore hlast (Text.digitsOfNat_ne_nil _) hmajor
      (Text.digitsOfNat_ne_nil _) hminor (by simpa using point_not_digit)
      ⟨after, rfl, hpatch.isRun (Text.digitsOfNat_ne_nil _) hafter⟩
  refine (find?_eq_some_iff hruns v).2 ⟨hmajor, hminor, ?_, by simp⟩
  rintro run ⟨⟩
  exact hpatch

/-! ## Configured versions in their own text -/

theorem IsPart.hasValue {n : Nat} (h : IsPart p n) (hplus : '+' ∉ p) : p ≠ [] ∧ HasValue p n := by
  obtain ⟨digits, rfl | rfl, hne, hvalue⟩ := h
  · exact ⟨hne, hvalue⟩
  · exact absurd List.mem_cons_self hplus

/-- **A configured version with a point is found in its own text**, unless a plus sign stands in
it. -/
theorem find?_of_spells (hcut : IsCut t parts) (htwo : 2 ≤ parts.length) (hplus : '+' ∉ t)
    (hv : Spells parts v) : find? t = some v := by
  obtain ⟨-, -, front, back, rfl, hfront, hback, -, -⟩ := hcut
  obtain ⟨values, zeros, hvalues, hcomponents, hzeros⟩ := hv
  have hbefore : Unpointed front := by
    rintro x c y rfl
    exact not_isDecimalDigit_of_isBlank (hfront c (by simp))
  have hlast : ∀ c ∈ front.getLast?, ¬ isDecimalDigit c = true :=
    fun c hc => not_isDecimalDigit_of_isBlank (hfront c (List.mem_of_getLast? hc))
  have hafter : ∀ c ∈ back.head?, ¬ isDecimalDigit c = true :=
    fun c hc => not_isDecimalDigit_of_isBlank (hback c (List.mem_of_head? hc))
  match parts, values, hvalues with
  | [_], _, _ => simp at htwo
  | [a, b], _, .cons (b := x) ha (.cons (b := y) hb .nil) =>
    obtain ⟨hane, ha⟩ := ha.hasValue fun h => hplus (by simp [h])
    obtain ⟨hbne, hb⟩ := hb.hasValue fun h => hplus (by simp [h])
    obtain ⟨rfl, rfl, rfl⟩ : v.major = x ∧ v.minor = y ∧ [v.patch] = zeros := by
      simpa [components] using hcomponents
    have hthird : PointRun back none := by
      rintro ⟨d, r, rfl, -⟩
      exact absurd (hback '.' List.mem_cons_self) (by decide)
    have hjoined : front ++ (['.'].intercalate [a, b] ++ back) =
        front ++ (a ++ '.' :: (b ++ back)) := by simp
    rw [hjoined]
    have hruns := firstRuns_of_values hbefore hlast hane ha hbne hb hafter hthird
    exact (find?_eq_some_iff hruns v).2 ⟨ha, hb, by simp, fun _ => hzeros _ (by simp)⟩
  | [a, b, c], _, .cons (b := x) ha (.cons (b := y) hb (.cons (b := z) hc .nil)) =>
    obtain ⟨hane, ha⟩ := ha.hasValue fun h => hplus (by simp [h])
    obtain ⟨hbne, hb⟩ := hb.hasValue fun h => hplus (by simp [h])
    obtain ⟨hcne, hc⟩ := hc.hasValue fun h => hplus (by simp [h])
    obtain ⟨rfl, rfl, rfl, rfl⟩ : v.major = x ∧ v.minor = y ∧ v.patch = z ∧ [] = zeros := by
      simpa [components] using hcomponents
    have hthird : PointRun ('.' :: (c ++ back)) (some c) := ⟨back, rfl, hc.isRun hcne hafter⟩
    have hjoined : front ++ (['.'].intercalate [a, b, c] ++ back) =
        front ++ (a ++ '.' :: (b ++ '.' :: (c ++ back))) := by simp
    rw [hjoined]
    have hruns := firstRuns_of_values hbefore hlast hane ha hbne hb
      (by simpa using point_not_digit) hthird
    refine (find?_eq_some_iff hruns v).2 ⟨ha, hb, ?_, by simp⟩
    rintro run ⟨⟩
    exact hc
  | _ :: _ :: _ :: _ :: _, _, .cons _ (.cons _ (.cons _ (.cons _ _))) =>
    simp [components] at hcomponents

/-! ## The written form -/

theorem isBlank_of_mem_digitsOfNat {n : Nat} {c : Char} (h : c ∈ Text.digitsOfNat n) :
    isBlank c = false :=
  Bool.eq_false_iff.2 fun hc =>
    not_isDecimalDigit_of_isBlank hc (isDecimalDigit_of_mem_digitsOfNat h)

theorem point_not_mem_digitsOfNat (n : Nat) : '.' ∉ Text.digitsOfNat n :=
  fun h => point_not_digit (isDecimalDigit_of_mem_digitsOfNat h)

/-- The written form has no blank ends, and its points are those between the components. -/
theorem isCut_format (v : Version) : IsCut v.format
    [Text.digitsOfNat v.major, Text.digitsOfNat v.minor, Text.digitsOfNat v.patch] := by
  have hjoined : ['.'].intercalate [Text.digitsOfNat v.major, Text.digitsOfNat v.minor,
      Text.digitsOfNat v.patch] = v.format := by
    simp [format]
  have hhead : v.format.head? = (Text.digitsOfNat v.major).head? := by
    rw [format, List.append_assoc, List.head?_append_of_ne_nil _ (Text.digitsOfNat_ne_nil _)]
  have hlast : v.format.getLast? = (Text.digitsOfNat v.patch).getLast? := by
    rw [format, ← List.singleton_append (l := Text.digitsOfNat v.patch), ← List.append_assoc,
      List.getLast?_append_of_ne_nil _ (Text.digitsOfNat_ne_nil _)]
  refine ⟨by simp, ?_, [], [], ?_⟩
  · simp [point_not_mem_digitsOfNat]
  · rw [hjoined, hhead, hlast]
    exact ⟨by simp, by simp, by simp,
      fun c hc => isBlank_of_mem_digitsOfNat (List.mem_of_mem_head? hc),
      fun c hc => isBlank_of_mem_digitsOfNat (List.mem_of_getLast? hc)⟩

theorem judged_iff (hcut : IsCut s.toList parts) (r : Except String Version) :
    (parse s).mapError (Fault.message s) = r ↔ Judged s parts r := by
  have hjudged := judged_ofComponents s hcut.1
  rw [isCut_iff] at hcut
  rw [← hcut] at hjudged ⊢
  constructor
  · rintro rfl
    exact hjudged
  · exact hjudged.unique

theorem parse_eq_ok_iff (hcut : IsCut s.toList parts) : parse s = .ok v ↔ Spells parts v := by
  have hjudged := judged_iff hcut (.ok v)
  constructor
  · intro h
    rw [h] at hjudged
    cases hjudged.1 rfl with
    | version h => exact h
  · intro h
    have hparse := hjudged.2 (.version h)
    cases hresult : parse s with
    | error fault => rw [hresult] at hparse; cases hparse
    | ok w => rw [hresult] at hparse; exact congrArg _ (Except.ok.inj hparse)

/-- **What is written is read back.** -/
theorem parse_text (hv : v.Bounded) : parse v.text = .ok v := by
  have hpart : ∀ n ∈ v.components, IsPart (Text.digitsOfNat n) n := fun n hn =>
    ⟨_, .inl rfl, Text.digitsOfNat_ne_nil _, hasValue_digitsOfNat (hv n hn)⟩
  have hcut : IsCut v.text.toList
      [Text.digitsOfNat v.major, Text.digitsOfNat v.minor, Text.digitsOfNat v.patch] := by
    rw [text, String.toList_ofList]
    exact isCut_format v
  refine (parse_eq_ok_iff hcut).2 ⟨v.components, [], ?_, (List.append_nil _).symm, by simp⟩
  exact .cons (hpart _ (by simp [components])) (.cons (hpart _ (by simp [components]))
    (.cons (hpart _ (by simp [components])) .nil))

/-- **The three notations agree.** A text is cut into its parts in one way, and these decide what
is said of it as a configured version: the version that they spell, or which of them is to blame.
What is written is read back. A configured version with a point and without a plus sign is what is
found in its text. And a written version is found in every text in which it stands apart from other
digits: the digits and points before it do not meet, and no digit touches it. -/
theorem notations_agree :
    (∀ s : String, ∃! parts, IsCut s.toList parts) ∧
    (∀ (s : String) parts, IsCut s.toList parts →
      ∀ r, (parse s).mapError (Fault.message s) = r ↔ Judged s parts r) ∧
    (∀ v : Version, v.Bounded → parse v.text = .ok v) ∧
    (∀ (s : String) parts v, IsCut s.toList parts → 2 ≤ parts.length → '+' ∉ s.toList →
      parse s = .ok v → find? s.toList = some v) ∧
    ∀ (v : Version) (before after : List Char), v.Bounded → Unpointed before →
      (∀ c ∈ before.getLast?, ¬ isDecimalDigit c = true) →
      (∀ c ∈ after.head?, ¬ isDecimalDigit c = true) →
      find? (before ++ v.text.toList ++ after) = some v := by
  refine ⟨fun s => ⟨_, isCut_iff.2 rfl, fun parts h => (isCut_iff.1 h).symm⟩,
    fun s parts hcut r => judged_iff hcut r, fun v hv => parse_text hv,
    fun s parts v hcut htwo hplus h => ?_, fun v before after hv hbefore hlast hafter => ?_⟩
  · exact find?_of_spells hcut htwo hplus ((parse_eq_ok_iff hcut).1 h)
  · rw [text, String.toList_ofList]
    exact find?_between hv hbefore hlast hafter

theorem notations_agree_php :
    IsCut " 8.+2\n".toList ["8".toList, "+2".toList] ∧
    (parse " 8.+2\n").mapError (Fault.message " 8.+2\n") = .ok ⟨8, 2, 0⟩ ∧
    (parse "8.x.y").mapError (Fault.message "8.x.y") =
      .error "Invalid minor version component in '8.x.y'" ∧
    parse "8.2.12" = .ok ⟨8, 2, 12⟩ ∧
    find? "5.4".toList = some ⟨5, 4, 0⟩ ∧
    find? "PHP 8.2.12 (cli)".toList = some ⟨8, 2, 12⟩ := by
  obtain ⟨-, hjudged, htext, hfind, hbetween⟩ := notations_agree
  have hcut : IsCut " 8.+2\n".toList ["8".toList, "+2".toList] := isCut_iff.2 (by decide)
  have hcut' : IsCut "8.x.y".toList ["8".toList, "x".toList, "y".toList] := isCut_iff.2 (by decide)
  have hcut'' : IsCut "5.4".toList ["5".toList, "4".toList] := isCut_iff.2 (by decide)
  have height : IsPart "8".toList 8 := component?_eq_some_iff.1 (by decide)
  have htwo : IsPart "+2".toList 2 := component?_eq_some_iff.1 (by decide)
  have hspells : Spells ["8".toList, "+2".toList] ⟨8, 2, 0⟩ :=
    ⟨[8, 2], [0], .cons height (.cons htwo .nil), rfl, by decide⟩
  have hbad : FirstBad ["8".toList, "x".toList, "y".toList] 1 :=
    ⟨"x".toList, rfl, component?_eq_none_iff.1 (by decide), fun _ hq =>
      ⟨8, (List.mem_singleton.1 hq).symm ▸ height⟩⟩
  have hv : (⟨8, 2, 12⟩ : Version).Bounded := by
    rw [Bounded]
    decide
  have hbefore : Unpointed "PHP ".toList := by
    intro before c after h
    have hpoint : '.' ∈ "PHP ".toList := by simp [h]
    exact absurd hpoint (by decide)
  have hblank : ¬ isDecimalDigit ' ' = true := by decide
  refine ⟨hcut, (hjudged " 8.+2\n" _ hcut _).2 (.version hspells),
    (hjudged "8.x.y" _ hcut' _).2 (.invalid hbad rfl), htext ⟨8, 2, 12⟩ hv,
    hfind "5.4" _ ⟨5, 4, 0⟩ hcut'' (by decide) (by decide) (by decide),
    hbetween ⟨8, 2, 12⟩ "PHP ".toList " (cli)".toList hv hbefore (by simpa using hblank)
      (by simpa using hblank)⟩

end CommitGate.Version

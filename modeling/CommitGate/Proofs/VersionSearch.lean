import CommitGate.Proofs.VersionCheck
import Mathlib.Data.List.TakeWhile

/-!
# The first version in a text

What is looked for in the output of a tool is the pattern `(\d+)\.(\d+)(?:\.(\d+))?`, where a digit
may be of any script. A pattern can be read off the front of a text in several ways, some of which
are preferred: a longer run to a shorter one, an optional part to nothing. The search takes the
preferred way at the first place where there is one. The definitions below say this of patterns in
general; the scan of a text, which sets out once from every digit, finds the same.

Results:

* `search_pattern`: the scan finds what the search for the pattern finds.
* `findRuns?_eq_some_iff`: the runs that are found, told by where they stand in the text.
* `findRuns?_append_separator`, `findRuns?_lines`: no version goes on behind the end of a line, so
  the first line with a version decides.
* `find?_exact`: which version is found, and when there is none.
-/

namespace CommitGate

namespace Text

/-! ## Patterns -/

/-- A pattern for a part of a text. -/
inductive Pattern where
  /-- Characters of a class, at least one and as many as possible. -/
  | run (p : Char → Bool)
  | char (c : Char)
  | seq (a b : Pattern)
  /-- The pattern, if possible, or nothing. -/
  | optional (a : Pattern)
  /-- What the pattern takes is kept. -/
  | group (a : Pattern)

/-- One way to read a pattern off the front of a text: what it takes, what its groups keep, and what
it leaves. A group that is passed over keeps nothing. -/
structure Way where
  taken : List Char
  groups : List (Option (List Char))
  rest : List Char

/-- Goes on with another way where this one ends. -/
def Way.andThen (w v : Way) : Way :=
  ⟨w.taken ++ v.taken, w.groups ++ v.groups, v.rest⟩

namespace Pattern

/-- The runs of a class at the front of a text, longer ones first. -/
def runs (p : Char → Bool) : List Char → List Way
  | [] => []
  | c :: r =>
    if p c then (runs p r).map (fun w => ⟨c :: w.taken, [], w.rest⟩) ++ [⟨[c], [], r⟩] else []

/-- How many groups there are. -/
def groupCount : Pattern → Nat
  | run _ => 0
  | char _ => 0
  | seq a b => a.groupCount + b.groupCount
  | optional a => a.groupCount
  | group a => a.groupCount + 1

/-- All ways to read a pattern off the front of a text, preferred ones first. -/
def ways : Pattern → List Char → List Way
  | run p, s => runs p s
  | char _, [] => []
  | char c, d :: r => if c = d then [⟨[c], [], r⟩] else []
  | seq a b, s => (a.ways s).flatMap fun w => (b.ways w.rest).map w.andThen
  | optional a, s => a.ways s ++ [⟨[], List.replicate a.groupCount none, s⟩]
  | group a, s => (a.ways s).map fun w => { w with groups := some w.taken :: w.groups }

/-- The preferred way at the first place where there is any. -/
def search (a : Pattern) : List Char → Option Way
  | [] => (a.ways []).head?
  | c :: r => (a.ways (c :: r)).head?.or (a.search r)

variable {p : Char → Bool} {c : Char} {r s : List Char}

theorem runs_of_not_head (h : ∀ c ∈ s.head?, ¬ p c = true) : runs p s = [] := by
  cases s with
  | nil => rfl
  | cons c r => rw [runs, if_neg (h c rfl)]

/-- The longest run comes first, and behind any other one stands a character of the class. -/
theorem runs_cons (hc : p c = true) :
    ∃ shorter, runs p (c :: r) =
        ⟨(c :: r).takeWhile p, [], (c :: r).dropWhile p⟩ :: shorter ∧
      ∀ w ∈ shorter, ∃ d t, w.rest = d :: t ∧ p d = true := by
  induction r generalizing c with
  | nil => exact ⟨[], by simp [runs, hc]⟩
  | cons d r ih =>
    rw [runs, if_pos hc, List.takeWhile_cons_of_pos hc, List.dropWhile_cons_of_pos hc]
    by_cases hd : p d = true
    · obtain ⟨shorter, hruns, hrest⟩ := ih hd
      rw [hruns]
      refine ⟨shorter.map (fun w => ⟨c :: w.taken, [], w.rest⟩) ++ [⟨[c], [], d :: r⟩], rfl, ?_⟩
      intro w hw
      rcases List.mem_append.1 hw with hw | hw
      · obtain ⟨v, hv, rfl⟩ := List.mem_map.1 hw
        exact hrest v hv
      · rw [List.mem_singleton.1 hw]
        exact ⟨d, r, rfl, hd⟩
    · rw [runs_of_not_head (by simpa using hd), List.takeWhile_cons_of_neg hd,
        List.dropWhile_cons_of_neg hd]
      exact ⟨[], rfl, by simp⟩

/-- Only the longest run counts where none of its characters may follow. -/
theorem findSome?_runs {β : Type} {f : Way → Option β} (hc : p c = true)
    (hf : ∀ w d t, w.rest = d :: t → p d = true → f w = none) :
    (runs p (c :: r)).findSome? f = f ⟨(c :: r).takeWhile p, [], (c :: r).dropWhile p⟩ := by
  obtain ⟨shorter, hruns, hrest⟩ := runs_cons (r := r) hc
  have hshorter : shorter.findSome? f = none := by
    rw [List.findSome?_eq_none_iff]
    intro w hw
    obtain ⟨d, t, hw, hd⟩ := hrest w hw
    exact hf w d t hw hd
  rw [hruns, List.findSome?_cons, hshorter]
  cases f ⟨(c :: r).takeWhile p, [], (c :: r).dropWhile p⟩ <;> rfl

theorem head?_ways_seq (a b : Pattern) (s : List Char) :
    ((seq a b).ways s).head? =
      (a.ways s).findSome? fun w => (b.ways w.rest).head?.map w.andThen := by
  simp only [ways, List.head?_flatMap, List.head?_map]

/-- The first way decides when every way goes on. -/
theorem findSome?_of_isSome {α β : Type} {l : List α} {f : α → Option β}
    (h : ∀ x, (f x).isSome = true) : l.findSome? f = l.head?.bind f := by
  cases l with
  | nil => rfl
  | cons x l =>
    obtain ⟨y, hy⟩ := Option.isSome_iff_exists.1 (h x)
    simp [hy]

end Pattern

end Text

namespace Version

open Text (Pattern isDecimalDigit)

/-! ## The pattern of a version -/

/-- A run of digits, which is kept. -/
def digits : Pattern := .group (.run isDecimalDigit)

/-- A point and a run of digits, which is kept. -/
def pointDigits : Pattern := .seq (.char '.') digits

/-- Two or three runs of digits with points between them. -/
def pattern : Pattern := .seq digits (.seq pointDigits (.optional pointDigits))

variable {s t r : List Char} {c : Char}

theorem point_not_digit : ¬ isDecimalDigit '.' = true := by
  decide +kernel

theorem pointRun?_of_digit (hc : isDecimalDigit c = true) : pointRun? (c :: r) = none := by
  unfold pointRun?
  split
  · next heq =>
    cases heq
    exact absurd hc point_not_digit
  · rfl

theorem head?_ways_pointDigits (s : List Char) :
    (pointDigits.ways s).head? =
      (pointRun? s).map fun found => ⟨'.' :: found.1, [some found.1], found.2⟩ := by
  unfold pointDigits digits
  rw [Pattern.head?_ways_seq]
  unfold pointRun?
  split
  · next d r =>
    by_cases hd : isDecimalDigit d = true
    · obtain ⟨shorter, hruns, -⟩ := Pattern.runs_cons (r := r) hd
      simp [Pattern.ways, hruns, hd, digitRun, Text.Way.andThen]
    · have hruns : Pattern.runs isDecimalDigit (d :: r) = [] :=
        Pattern.runs_of_not_head (by simpa using hd)
      simp [Pattern.ways, hruns, hd]
  · next hnot =>
    cases s with
    | nil => rfl
    | cons d r =>
      by_cases hd : '.' = d
      · subst hd
        cases r with
        | nil => rfl
        | cons e r => exact absurd rfl (hnot e r)
      · simp [Pattern.ways, hd]

/-- Behind the first run: the second has to be there, the third is kept when it is there. -/
theorem head?_ways_behind (s : List Char) :
    ((Pattern.seq pointDigits (.optional pointDigits)).ways s).head?.map (·.groups) =
      (pointRun? s).map fun found => [some found.1, (pointRun? found.2).map (·.1)] := by
  rw [Pattern.head?_ways_seq]
  have hoptional : ∀ s, ((Pattern.optional pointDigits).ways s).head? =
      some (((pointRun? s).map fun found => ⟨'.' :: found.1, [some found.1], found.2⟩).getD
        ⟨[], [none], s⟩) := by
    intro s
    rw [Pattern.ways, List.head?_append, head?_ways_pointDigits]
    cases pointRun? s <;> rfl
  rw [Pattern.findSome?_of_isSome (by simp [hoptional]), head?_ways_pointDigits]
  cases pointRun? s with
  | none => rfl
  | some found =>
    simp only [Option.map_some, Option.bind_some, hoptional]
    cases pointRun? found.2 <;> rfl

/-- At one place, the first run is as long as it can be: behind a shorter one stands a digit. -/
theorem head?_ways_pattern (hc : isDecimalDigit c = true) (r : List Char) :
    (pattern.ways (c :: r)).head?.map (·.groups) =
      (pointRun? (digitRun (c :: r)).2).map fun found =>
        [some (digitRun (c :: r)).1, some found.1, (pointRun? found.2).map (·.1)] := by
  have hshorter : ∀ (w : Text.Way) d t, w.rest = d :: t → isDecimalDigit d = true →
      ((Pattern.seq pointDigits (.optional pointDigits)).ways w.rest).head? = none := by
    intro w d t hrest hd
    have hbehind := head?_ways_behind w.rest
    rwa [hrest, pointRun?_of_digit hd, Option.map_none, Option.map_eq_none_iff, ← hrest] at hbehind
  have hbehind := head?_ways_behind (digitRun (c :: r)).2
  unfold pattern
  rw [Pattern.head?_ways_seq, digits, Pattern.ways, Pattern.ways, List.findSome?_map,
    Pattern.findSome?_runs hc fun w d t hrest hd => by simp [hshorter w d t hrest hd]]
  simp only [digitRun, Function.comp_apply] at hbehind ⊢
  cases hpoint : pointRun? ((c :: r).dropWhile isDecimalDigit) with
  | none =>
    rw [hpoint, Option.map_none, Option.map_eq_none_iff] at hbehind
    rw [hbehind]
    rfl
  | some found =>
    rw [hpoint, Option.map_some] at hbehind
    obtain ⟨w, hw, hgroups⟩ := Option.map_eq_some_iff.1 hbehind
    simp [hw, hgroups, Text.Way.andThen]

theorem head?_ways_pattern_of_not_digit (hc : ¬ isDecimalDigit c = true) (r : List Char) :
    (pattern.ways (c :: r)).head? = none := by
  have hruns : Pattern.runs isDecimalDigit (c :: r) = [] :=
    Pattern.runs_of_not_head (by simpa using hc)
  simp [pattern, digits, Pattern.ways, hruns]

/-- **The scan finds what the search for the pattern finds.** -/
theorem search_pattern (s : List Char) :
    (pattern.search s).map (·.groups) =
      (findRuns? s).map fun (a, b, c) => [some a, some b, c] := by
  induction s with
  | nil => rfl
  | cons c r ih =>
    rw [Pattern.search, findRuns?]
    by_cases hc : isDecimalDigit c = true
    · have hhere := head?_ways_pattern hc r
      rw [if_pos hc]
      cases hpoint : pointRun? (digitRun (c :: r)).2 with
      | none =>
        rw [hpoint, Option.map_none, Option.map_eq_none_iff] at hhere
        rw [hhere, Option.none_or, ih]
      | some found =>
        rw [hpoint, Option.map_some] at hhere
        obtain ⟨w, hw, hgroups⟩ := Option.map_eq_some_iff.1 hhere
        simp [hw, hgroups]
    · rw [if_neg hc, head?_ways_pattern_of_not_digit hc, Option.none_or, ih]

/-! ## Where the runs stand -/

/-- A run of digits in front of a text that goes on with something else. -/
structure IsRun (run rest : List Char) : Prop where
  nonempty : run ≠ []
  digits : ∀ c ∈ run, isDecimalDigit c = true
  ends : ∀ c ∈ rest.head?, ¬ isDecimalDigit c = true

/-- A point and the run of digits behind it, if there is one at the front. -/
def PointRun (s : List Char) : Option (List Char) → Prop
  | none => ¬ ∃ d r, s = '.' :: d :: r ∧ isDecimalDigit d = true
  | some run => ∃ rest, s = '.' :: (run ++ rest) ∧ IsRun run rest

/-- The run `a` is the first in the text that a point and a digit follow, `b` is the run behind that
point, and `c` the third run where a point and a digit follow again. No earlier run counts: in what
stands before the point, no digit is followed by a point and a digit. -/
def FirstRuns (s a b : List Char) (c : Option (List Char)) : Prop :=
  ∃ before rest, s = before ++ (a ++ '.' :: (b ++ rest)) ∧
    (∀ x ∈ before.getLast?, ¬ isDecimalDigit x = true) ∧ IsRun a ('.' :: (b ++ rest)) ∧
    ¬ Shown (before ++ a) ∧ IsRun b rest ∧ PointRun rest c

theorem digitRun_append (s : List Char) : (digitRun s).1 ++ (digitRun s).2 = s :=
  List.takeWhile_append_dropWhile

theorem isRun_digitRun (hc : isDecimalDigit c = true) (r : List Char) :
    IsRun (digitRun (c :: r)).1 (digitRun (c :: r)).2 := by
  refine ⟨?_, fun x hx => List.mem_takeWhile_imp hx, fun x hx => ?_⟩
  · simp [digitRun, hc]
  · have := List.head?_dropWhile_not isDecimalDigit (c :: r)
    rw [digitRun, Option.mem_def] at hx
    rw [hx] at this
    simpa using this

theorem IsRun.digitRun_eq {run rest : List Char} (h : IsRun run rest) :
    digitRun (run ++ rest) = (run, rest) := by
  have hrest : rest.takeWhile isDecimalDigit = [] ∧ rest.dropWhile isDecimalDigit = rest := by
    cases rest with
    | nil => exact ⟨rfl, rfl⟩
    | cons x r =>
      have hx := h.ends x rfl
      exact ⟨List.takeWhile_cons_of_neg hx, List.dropWhile_cons_of_neg hx⟩
  rw [digitRun, List.takeWhile_append_of_pos h.digits, List.dropWhile_append_of_pos h.digits,
    hrest.1, hrest.2, List.append_nil]

theorem pointRun?_eq_some_iff {run rest : List Char} :
    pointRun? s = some (run, rest) ↔ s = '.' :: (run ++ rest) ∧ IsRun run rest := by
  constructor
  · intro h
    unfold pointRun? at h
    split at h
    · next d r =>
      split at h
      · next hd =>
        have hrun := isRun_digitRun hd r
        have happend := digitRun_append (d :: r)
        rw [Option.some.inj h] at hrun happend
        exact ⟨by rw [happend], hrun⟩
      · cases h
    · cases h
  · rintro ⟨rfl, h⟩
    obtain ⟨d, r, hr⟩ := List.exists_cons_of_ne_nil h.nonempty
    have hd : isDecimalDigit d = true := h.digits d (by simp [hr])
    have hrun := h.digitRun_eq
    rw [hr, List.cons_append] at hrun ⊢
    rw [pointRun?, if_pos hd, hrun]

theorem pointRun_iff {found : Option (List Char)} :
    PointRun s found ↔ (pointRun? s).map (·.1) = found := by
  cases found with
  | none =>
    rw [Option.map_eq_none_iff, PointRun, not_exists]
    unfold pointRun?
    split
    · next d r =>
      by_cases hd : isDecimalDigit d = true
      · simp [hd]
      · simp [hd]
    · next hnot =>
      simp only [iff_true]
      rintro d ⟨r, rfl, -⟩
      exact hnot d r rfl
  | some run =>
    rw [Option.map_eq_some_iff, PointRun]
    constructor
    · rintro ⟨rest, hs⟩
      exact ⟨(run, rest), pointRun?_eq_some_iff.2 hs, rfl⟩
    · rintro ⟨⟨run', rest⟩, hs, rfl⟩
      exact ⟨rest, pointRun?_eq_some_iff.1 hs⟩

theorem Shown.of_cons (h : Shown (c :: s)) :
    Shown s ∨ isDecimalDigit c = true ∧
      ∃ d r, s = '.' :: d :: r ∧ isDecimalDigit d = true := by
  obtain ⟨before, x, d, after, heq, hx, hd⟩ := h
  cases before with
  | nil =>
    obtain ⟨rfl, rfl⟩ := List.cons.inj heq
    exact .inr ⟨hx, d, after, rfl, hd⟩
  | cons y before =>
    obtain ⟨rfl, rfl⟩ := List.cons.inj heq
    exact .inl ⟨before, x, d, after, rfl, hx, hd⟩

theorem not_shown_of_digits (h : ∀ c ∈ s, isDecimalDigit c = true) : ¬ Shown s := by
  rintro ⟨before, x, d, after, rfl, -, -⟩
  exact point_not_digit (h '.' (by simp))

/-- A text that shows a version has one found in it. -/
theorem findRuns?_isSome_of_shown (h : Shown s) : (findRuns? s).isSome = true := by
  induction s with
  | nil =>
    obtain ⟨before, x, d, after, heq, -, -⟩ := h
    simp at heq
  | cons c r ih =>
    rw [findRuns?]
    split
    · rfl
    · next hnone =>
      refine ih (h.of_cons.resolve_right ?_)
      rintro ⟨hc, d, t, rfl, hd⟩
      have hrun : IsRun [c] ('.' :: d :: t) :=
        ⟨by simp, by simpa using hc, by simpa using point_not_digit⟩
      rw [if_pos hc, ← List.singleton_append, hrun.digitRun_eq, pointRun?, if_pos hd] at hnone
      cases hnone

theorem findRuns?_isSome_iff : (findRuns? s).isSome = true ↔ Shown s := by
  refine ⟨fun h => ?_, findRuns?_isSome_of_shown⟩
  by_contra hnot
  rw [findRuns?_eq_none hnot] at h
  cases h

instance (s : List Char) : Decidable (Shown s) :=
  decidable_of_iff _ findRuns?_isSome_iff

/-- What is found are the first runs. -/
theorem firstRuns_of_findRuns? {a b : List Char} {found : Option (List Char)}
    (h : findRuns? s = some (a, b, found)) : FirstRuns s a b found := by
  induction s with
  | nil => cases h
  | cons c r ih =>
    rw [findRuns?] at h
    split at h
    · next minor rest hhere =>
      split at hhere
      · next hc =>
        obtain ⟨hbehind, hminor⟩ := pointRun?_eq_some_iff.1 hhere
        obtain ⟨rfl, rfl, rfl⟩ : (digitRun (c :: r)).1 = a ∧ minor = b ∧
            (pointRun? rest).map (·.1) = found := by simpa using h
        have hrun := isRun_digitRun hc r
        rw [hbehind] at hrun
        refine ⟨[], rest, ?_, by simp, hrun, not_shown_of_digits hrun.digits, hminor,
          pointRun_iff.2 rfl⟩
        rw [List.nil_append, ← hbehind, digitRun_append]
      · cases hhere
    · next hnone =>
      obtain ⟨before, rest, rfl, hbefore, hrun, hshown, hminor, hthird⟩ := ih h
      refine ⟨c :: before, rest, rfl, ?_, hrun, ?_, hminor, hthird⟩
      · cases before with
        | nil =>
          -- a digit here would belong to the run
          intro x hx hdigit
          obtain rfl : c = x := by simpa using hx
          have hlonger : IsRun (c :: a) ('.' :: (b ++ rest)) :=
            ⟨by simp, by simpa using ⟨hdigit, hrun.digits⟩, hrun.ends⟩
          rw [if_pos hdigit, List.nil_append, ← List.cons_append, hlonger.digitRun_eq,
            pointRun?_eq_some_iff.2 ⟨rfl, hminor⟩] at hnone
          cases hnone
        | cons y before => simpa using hbefore
      · intro hcons
        rcases hcons.of_cons with hlater | ⟨hc, d, t, hd', hd⟩
        · exact hshown hlater
        · have hlone : IsRun [c] ('.' :: d :: (t ++ '.' :: (b ++ rest))) :=
            ⟨by simp, by simpa using hc, by simpa using point_not_digit⟩
          have hsplit : before ++ (a ++ '.' :: (b ++ rest)) =
              '.' :: d :: (t ++ '.' :: (b ++ rest)) := by
            rw [← List.append_assoc]
            exact congrArg (· ++ '.' :: (b ++ rest)) hd'
          rw [if_pos hc, hsplit, ← List.singleton_append, hlone.digitRun_eq, pointRun?,
            if_pos hd] at hnone
          cases hnone

/-- Digits that stand before the first run are followed by something else in front of that run. -/
theorem pointRun?_before {before a : List Char} (hc : isDecimalDigit c = true)
    (hlast : ∀ x ∈ (c :: before).getLast?, ¬ isDecimalDigit x = true) (ha : a ≠ [])
    (h : ¬ Shown (c :: (before ++ a))) (t : List Char) :
    pointRun? (digitRun (c :: (before ++ (a ++ t)))).2 = none := by
  have hstops : (c :: before).dropWhile isDecimalDigit ≠ [] := by
    intro hall
    exact hlast _ (List.getLast?_eq_some_getLast (List.cons_ne_nil c before))
      (List.dropWhile_eq_nil_iff.1 hall _ (List.getLast_mem _))
  obtain ⟨y, w, hyw⟩ := List.exists_cons_of_ne_nil hstops
  have hdrop : ∀ t, (digitRun (c :: (before ++ t))).2 = y :: (w ++ t) := by
    intro t
    show (c :: before ++ t).dropWhile isDecimalDigit = _
    rw [List.dropWhile_append, if_neg (by simp [hyw]), hyw, List.cons_append]
  -- at least two characters before `t` are left, and they decide
  obtain ⟨d, v, hdv⟩ := List.exists_cons_of_ne_nil (List.append_ne_nil_of_right_ne_nil w ha)
  have hnone := pointRun?_digitRun hc h
  rw [hdrop, hdv] at hnone
  rw [hdrop, ← List.append_assoc, hdv, List.cons_append]
  by_cases hy : y = '.'
  · subst hy
    have hd : ¬ isDecimalDigit d = true := by
      intro hd
      rw [pointRun?, if_pos hd] at hnone
      cases hnone
    rw [pointRun?, if_neg hd]
  · unfold pointRun?
    split
    · next heq => exact absurd (List.cons.inj heq).1 hy
    · rfl

/-- The first runs are found: each place before them shows nothing. -/
theorem findRuns?_of_firstRuns {a b : List Char} {found : Option (List Char)}
    (h : FirstRuns s a b found) : findRuns? s = some (a, b, found) := by
  obtain ⟨before, rest, rfl, hbefore, hrun, hshown, hminor, hthird⟩ := h
  induction before with
  | nil =>
    obtain ⟨d, r, rfl⟩ := List.exists_cons_of_ne_nil hrun.nonempty
    have hd : isDecimalDigit d = true := hrun.digits d List.mem_cons_self
    have heq := hrun.digitRun_eq
    rw [List.nil_append]
    rw [List.cons_append] at heq ⊢
    rw [findRuns?, if_pos hd, heq, pointRun?_eq_some_iff.2 ⟨rfl, hminor⟩]
    simp [pointRun_iff.1 hthird]
  | cons c before ih =>
    have hhere : (if isDecimalDigit c then
        pointRun? (digitRun (c :: (before ++ (a ++ '.' :: (b ++ rest))))).2 else none) = none := by
      split
      · next hc => exact pointRun?_before hc hbefore hrun.nonempty hshown _
      · rfl
    have hlater : ∀ x ∈ before.getLast?, ¬ isDecimalDigit x = true := by
      cases before with
      | nil => simp
      | cons y before => simpa using hbefore
    rw [List.cons_append, findRuns?, hhere]
    exact ih hlater fun hmore => hshown (hmore.cons c)

theorem findRuns?_eq_some_iff {a b : List Char} {found : Option (List Char)} :
    findRuns? s = some (a, b, found) ↔ FirstRuns s a b found :=
  ⟨firstRuns_of_findRuns?, findRuns?_of_firstRuns⟩

/-! ## The numbers of the runs -/

/-- The number of a run of ASCII digits, which has to stay below the bound of a component. -/
def HasValue (run : List Char) (n : Nat) : Prop :=
  (∀ c ∈ run, c.isDigit = true) ∧ Text.natOfDigits 10 run = n ∧ n < Nat.pow 2 64

theorem runValue?_eq_some_iff {run : List Char} (hne : run ≠ []) {n : Nat} :
    runValue? run = some n ↔ HasValue run n := by
  unfold runValue? HasValue
  by_cases hall : run.all Char.isDigit = true
  · have hdigits : ∀ c ∈ run, c.isDigit = true := List.all_eq_true.1 hall
    have hplus : run.head? ≠ some '+' := by
      intro hhead
      exact absurd (hdigits '+' (List.mem_of_mem_head? hhead)) (by decide)
    have hbound : Nat.pow 2 64 = bound := rfl
    rw [if_pos hall, Text.natBelow?, if_neg hplus, hbound]
    simp only [hne, ne_eq, not_false_eq_true, hall, true_and]
    constructor
    · intro hvalue
      split at hvalue
      · next hlt =>
        cases hvalue
        exact ⟨hdigits, rfl, hlt⟩
      · cases hvalue
    · rintro ⟨-, rfl, hlt⟩
      rw [if_pos hlt]
  · rw [if_neg hall]
    simp only [List.all_eq_true] at hall
    simp [hall]

/-- The version that is found is that of the first runs, when they have values. -/
theorem find?_eq_some_iff {a b : List Char} {found : Option (List Char)}
    (h : FirstRuns s a b found) (v : Version) :
    find? s = some v ↔ HasValue a v.major ∧ HasValue b v.minor ∧
      (∀ run, found = some run → HasValue run v.patch) ∧ (found = none → v.patch = 0) := by
  have hthird : found.elim (some 0) runValue? = some v.patch ↔
      (∀ run, found = some run → HasValue run v.patch) ∧ (found = none → v.patch = 0) := by
    obtain ⟨before, rest, -, -, -, -, -, hthird⟩ := h
    cases found with
    | none => simp [eq_comm]
    | some run =>
      obtain ⟨after, -, hrun⟩ := hthird
      simp [runValue?_eq_some_iff hrun.nonempty]
  have hruns := findRuns?_of_firstRuns h
  obtain ⟨before, rest, -, -, hfirst, -, hsecond, -⟩ := h
  rw [← hthird, ← runValue?_eq_some_iff hfirst.nonempty, ← runValue?_eq_some_iff hsecond.nonempty]
  cases v
  simp only [find?, hruns, bind, Option.bind_some, Option.bind_eq_some_iff, Option.some.injEq,
    mk.injEq]
  constructor
  · rintro ⟨major, hmajor, minor, hminor, patch, hpatch, rfl, rfl, rfl⟩
    exact ⟨hmajor, hminor, hpatch⟩
  · rintro ⟨hmajor, hminor, hpatch⟩
    exact ⟨_, hmajor, _, hminor, _, hpatch, rfl, rfl, rfl⟩

/-! ## Lines -/

section Separator

variable (hdigit : ¬ isDecimalDigit c = true) (hpoint : c ≠ '.')

include hdigit in
theorem digitRun_append_separator (s t : List Char) :
    digitRun (s ++ c :: t) = ((digitRun s).1, (digitRun s).2 ++ c :: t) := by
  induction s with
  | nil => simp [digitRun, hdigit]
  | cons d s ih =>
    simp only [digitRun, Prod.mk.injEq] at ih ⊢
    by_cases hd : isDecimalDigit d = true
    · simp [hd, ih]
    · simp [hd]

include hdigit hpoint in
theorem pointRun?_append_separator (s t : List Char) :
    pointRun? (s ++ c :: t) = (pointRun? s).map fun found => (found.1, found.2 ++ c :: t) := by
  match s with
  | [] => simp [pointRun?, hpoint]
  | [d] =>
    by_cases hd : d = '.'
    · simp [pointRun?, hd, hdigit]
    · simp [pointRun?, hd]
  | d :: e :: s =>
    by_cases hd : d = '.'
    · subst hd
      by_cases he : isDecimalDigit e = true
      · have hrun := digitRun_append_separator hdigit (e :: s) t
        simp only [List.cons_append] at hrun
        simp [pointRun?, he, hrun]
      · simp [pointRun?, he]
    · simp [pointRun?, hd]

include hdigit hpoint in
/-- **What stands in front of a separator decides**, when it shows a version: no version goes on
behind something that is neither a digit nor a point. -/
theorem findRuns?_append_separator (s t : List Char) :
    findRuns? (s ++ c :: t) = (findRuns? s).or (findRuns? t) := by
  induction s with
  | nil => simp [findRuns?, hdigit]
  | cons d s ih =>
    rw [List.cons_append, findRuns?, findRuns?]
    by_cases hd : isDecimalDigit d = true
    · rw [if_pos hd, if_pos hd, ← List.cons_append, digitRun_append_separator hdigit,
        pointRun?_append_separator hdigit hpoint]
      cases hfirst : pointRun? (digitRun (d :: s)).2 with
      | none => exact ih
      | some found =>
        simp only [Option.map_some, pointRun?_append_separator hdigit hpoint, Option.map_map,
          Option.some_or]
        rfl
    · rw [if_neg hd, if_neg hd]
      exact ih

end Separator

/-- The first line that shows a version decides. -/
theorem findRuns?_lines (lines : List String) :
    findRuns? ("\n".intercalate lines).toList = lines.findSome? fun l => findRuns? l.toList := by
  have hdigit : ¬ isDecimalDigit '\n' = true := by decide +kernel
  have hnewline : "\n".toList = ['\n'] := by decide
  rw [String.toList_intercalate, hnewline]
  induction lines with
  | nil => rfl
  | cons l lines ih =>
    cases lines with
    | nil =>
      rw [List.map_cons, List.map_nil, List.intercalate_singleton, List.findSome?_cons]
      cases findRuns? l.toList <;> rfl
    | cons m lines =>
      rw [List.map_cons] at ih
      rw [List.map_cons, List.map_cons, List.intercalate_cons_cons, List.append_assoc,
        List.singleton_append, findRuns?_append_separator hdigit (by decide), ih]
      cases hl : findRuns? l.toList <;> simp [hl]

/-- **Which version is found in a text.** The search looks for a pattern of two or three runs of
digits. Where no digit is followed by a point and a digit, there is none. Otherwise there are first
runs, and the version is theirs when they are ASCII digits with values that fit, a missing third one
counting as zero; later runs do not matter. In lines that are joined, the first line in which a
digit is followed by a point and a digit decides. -/
theorem find?_exact :
    (∀ s, (pattern.search s).map (·.groups) =
      (findRuns? s).map fun (a, b, c) => [some a, some b, c]) ∧
    (∀ s, ¬ Shown s → find? s = none) ∧
    (∀ s, Shown s → ∃ a b c, FirstRuns s a b c) ∧
    (∀ s a b c, FirstRuns s a b c → ∀ v, find? s = some v ↔
      HasValue a v.major ∧ HasValue b v.minor ∧
        (∀ run, c = some run → HasValue run v.patch) ∧ (c = none → v.patch = 0)) ∧
    ∀ lines : List String,
      ((∀ l ∈ lines, ¬ Shown l.toList) → find? ("\n".intercalate lines).toList = none) ∧
      ∀ front line back, lines = front ++ line :: back → (∀ l ∈ front, ¬ Shown l.toList) →
        Shown line.toList → find? ("\n".intercalate lines).toList = find? line.toList := by
  refine ⟨search_pattern, fun s => find?_eq_none, fun s hs => ?_,
    fun s a b c h v => find?_eq_some_iff h v, fun lines => ⟨fun hnone => ?_, ?_⟩⟩
  · obtain ⟨⟨a, b, c⟩, hfound⟩ := Option.isSome_iff_exists.1 (findRuns?_isSome_iff.2 hs)
    exact ⟨a, b, c, firstRuns_of_findRuns? hfound⟩
  · have hlines : findRuns? ("\n".intercalate lines).toList = none := by
      rw [findRuns?_lines, List.findSome?_eq_none_iff]
      exact fun l hl => findRuns?_eq_none (hnone l hl)
    unfold find?
    rw [hlines]
    rfl
  · rintro front line back rfl hfront hline
    have hbefore : front.findSome? (fun l => findRuns? l.toList) = none :=
      List.findSome?_eq_none_iff.2 fun l hl => findRuns?_eq_none (hfront l hl)
    obtain ⟨found, hfound⟩ := Option.isSome_iff_exists.1 (findRuns?_isSome_iff.2 hline)
    have hlines : findRuns? ("\n".intercalate (front ++ line :: back)).toList =
        findRuns? line.toList := by
      rw [findRuns?_lines, List.findSome?_append, hbefore, Option.none_or, List.findSome?_cons,
        hfound]
    unfold find?
    rw [hlines]

/-- Points in a row, four parts and a version in a later line. -/
theorem find?_exact_php :
    FirstRuns "v..8.10.3.4".toList "8".toList "10".toList (some "3".toList) ∧
      find? "v..8.10.3.4".toList = some ⟨8, 10, 3⟩ ∧
      find? ("\n".intercalate ["version 8.", "PHP 8.2", "Zend 4.2"]).toList =
        find? "PHP 8.2".toList := by
  have hruns : FirstRuns "v..8.10.3.4".toList "8".toList "10".toList (some "3".toList) :=
    findRuns?_eq_some_iff.1 (by decide +kernel)
  obtain ⟨-, -, -, hvalue, hlines⟩ := find?_exact
  refine ⟨hruns, (hvalue _ _ _ _ hruns _).2 ⟨?_, ?_, ?_, by simp⟩, ?_⟩
  · exact ⟨List.all_eq_true.1 (by decide), by decide, by decide⟩
  · exact ⟨List.all_eq_true.1 (by decide), by decide, by decide⟩
  · rintro run ⟨⟩
    exact ⟨List.all_eq_true.1 (by decide), by decide, by decide⟩
  · refine (hlines _).2 ["version 8."] _ ["Zend 4.2"] rfl ?_ (by decide +kernel)
    intro l hl
    obtain rfl := List.mem_singleton.1 hl
    decide +kernel

/-- Digits of another script make a version, but one without a value, and no later one is tried. -/
example : find? "\u0663.1 2.0".toList = none := by decide +kernel

end Version

end CommitGate

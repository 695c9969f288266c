import CommitGate.Cli.Arguments
import Mathlib.Data.List.Nodup
import Mathlib.Data.List.TakeWhile

/-!
# Reading the arguments of a scope

An argument names a command, or it takes what has been given in its scope one step further. An
option may wait to be looked at until the next step, so what counts is what is given once it has
been. Arguments that spell options one by one are read as these options, in their order, whatever
the values look like: a value stands behind an equals sign, and the words for a shell look like
nothing else.

Results:

* `Form.of_spelled`: an option that is spelled out has a long form with its name and its value.
* `Progress.readArguments_eq`, `progress_of_readArguments`: reading is a sequence of steps up to a
  command.
* `Settled.exists_readArguments`, `exists_settled`: arguments that spell options are read as these
  options.
* `Settled.finish`, `Given.finish_of_conflict`: what is given is accepted unless two options exclude
  each other.
-/

namespace CommitGate.Cli

/-! ## Forms of arguments -/

/-- The argument that gives an option its value: the value alone if the option has no name, and a
long name otherwise, for a flag without an equals sign. -/
def Opt.spelled (o : Opt) (v : String) : String :=
  if o = .shell then v
  else if o.takesValue then "--" ++ o.long ++ "=" ++ v
  else "--" ++ o.long

/-- The value as it comes with the name: there is none for a flag. -/
def Opt.given? (o : Opt) (v : String) : Option String :=
  if o.takesValue then some v else none

namespace Opt

theorem long_injective {o p : Opt} (h : o.long = p.long) : o = p := by
  revert h
  cases o <;> cases p <;> decide

theorem not_mem_long (o : Opt) : '=' ∉ o.long.toList := by
  cases o <;> decide

theorem long_ne_nil {o : Opt} (h : o ≠ .shell) : o.long.toList ≠ [] := by
  cases o <;> first | decide | exact absurd rfl h

end Opt

namespace Form

/-- All forms but one begin with a dash. -/
theorem head?_of_ne_plain {s : List Char} (h : Form.of s ≠ .plain) : s.head? = some '-' := by
  unfold Form.of at h
  split at h <;> first | rfl | exact absurd rfl h

theorem of_long {name : List Char} (hne : name ≠ []) (hname : '=' ∉ name) :
    Form.of ('-' :: '-' :: name) = .long name none := by
  obtain ⟨c, s, rfl⟩ := List.exists_cons_of_ne_nil hne
  have hpass : ∀ d ∈ c :: s, decide (d ≠ '=') = true := by
    intro d hd
    simpa using fun heq : d = '=' => hname (heq ▸ hd)
  rw [Form.of, List.takeWhile_eq_self_iff.2 hpass, List.dropWhile_eq_nil_iff.2 hpass]
  simp

theorem of_long_value {name : List Char} (hname : '=' ∉ name) (v : List Char) :
    Form.of ('-' :: '-' :: (name ++ '=' :: v)) = .long name (some (String.ofList v)) := by
  have hpass : ∀ d ∈ name, decide (d ≠ '=') = true := by
    intro d hd
    simpa using fun heq : d = '=' => hname (heq ▸ hd)
  rw [Form.of, List.takeWhile_append_of_pos hpass, List.dropWhile_append_of_pos hpass] <;> simp

theorem of_short {letters : List Char} (hne : letters ≠ []) (hdash : letters.head? ≠ some '-') :
    Form.of ('-' :: letters) = .short letters := by
  obtain ⟨c, s, rfl⟩ := List.exists_cons_of_ne_nil hne
  have hc : c ≠ '-' := fun h => hdash (by simp [h])
  rw [Form.of] <;> simp [hc]

theorem of_ne_short_nil (s : List Char) : Form.of s ≠ .short [] := by
  unfold Form.of
  split <;> simp

theorem of_spelled {o : Opt} (ho : o ≠ .shell) (v : String) :
    Form.of (o.spelled v).toList = .long o.long.toList (o.given? v) := by
  have hdash : "--".toList = ['-', '-'] := by decide
  have hequals : "=".toList = ['='] := by decide
  rw [Opt.spelled, if_neg ho, Opt.given?]
  split
  · have htext : ("--" ++ o.long ++ "=" ++ v).toList =
        '-' :: '-' :: (o.long.toList ++ '=' :: v.toList) := by
      simp [hdash, hequals]
    rw [htext, of_long_value o.not_mem_long, String.ofList_toList]
  · rw [String.toList_append, hdash]
    exact of_long (Opt.long_ne_nil ho) o.not_mem_long

/-- The word for a shell has no dash before it. -/
theorem of_shell {v : String} (h : Opt.shell.admits v = true) : Form.of v.toList = .plain := by
  obtain ⟨s, hs⟩ := Option.isSome_iff_exists.1 (h : (CompletionShell.ofKeyword? v).isSome = true)
  have hv : s.keyword = v := by simpa using List.find?_some hs
  rw [← hv]
  cases s <;> decide

end Form

/-! ## Names in a scope -/

namespace Scope

variable {l : Scope} {o : Opt} {a : String}

theorem long?_eq_some_iff {name : List Char} :
    l.long? name = some o ↔ o ∈ l.options ∧ o.long.toList = name := by
  constructor
  · intro h
    exact ⟨List.mem_of_find?_eq_some h, by simpa using List.find?_some h⟩
  · rintro ⟨ho, rfl⟩
    have hfound : (l.long? o.long.toList).isSome = true := List.find?_isSome.2 ⟨o, ho, by simp⟩
    obtain ⟨p, hp⟩ := Option.isSome_iff_exists.1 hfound
    have hlong : p.long.toList = o.long.toList := by simpa using List.find?_some hp
    rw [hp, Opt.long_injective (String.toList_inj.1 hlong)]

theorem ne_shell_of_mem_options (h : o ∈ l.options) : o ≠ .shell := by
  rintro rfl
  revert h
  cases l with
  | none => decide
  | some c => cases c <;> decide

/-- No command is called by a word that begins with a dash. -/
theorem commandWord?_of_dash (h : a.toList.head? = some '-') : l.commandWord? a = none := by
  have hhelp : a ≠ "help" := by
    rintro rfl
    exact absurd h (by decide)
  have hword : CommandName.ofWord? a = none := by
    rw [Option.eq_none_iff_forall_ne_some]
    intro c hc
    have hname : c.name = a ∨ c.alias? = some a := by simpa using List.find?_some hc
    revert h
    rcases hname with rfl | halias
    · cases c <;> decide
    · cases c <;> simp only [CommandName.alias?, Option.some.injEq, reduceCtorEq] at halias <;>
        subst halias <;> decide
  rw [commandWord?, if_neg hhelp, hword]
  split <;> rfl

theorem commandWord?_of_ofWord? {c : CommandName} (h : CommandName.ofWord? a = some c) :
    Scope.commandWord? none a = some (.command c) := by
  have hhelp : a ≠ "help" := by
    rintro rfl
    exact absurd h (by decide +revert)
  simp [commandWord?, hhelp, h]

end Scope

/-! ## Steps -/

/-- What an argument that names no command does in a scope. -/
inductive Progress (l : Scope) (g : Given) (a : String) : Given → Prop where
  | escape (unescaped : g.escaped = false) (form : Form.of a.toList = .escape) :
    Progress l g a { g with escaped := true }
  | long {name : List Char} {value : Option String} {g₁ : Given} (unescaped : g.escaped = false)
    (form : Form.of a.toList = .long name value) (read : readLong l g name value = .ok g₁) :
    Progress l g a g₁
  | short {letters : List Char} {g₁ : Given} (unescaped : g.escaped = false)
    (form : Form.of a.toList = .short letters) (read : readShort l g letters = .ok g₁) :
    Progress l g a g₁
  | value {o : Opt} (unescaped : g.escaped = false) (waiting : g.waiting? = some o)
    (form : Form.of a.toList = .plain) : Progress l g a { g with pending := some (o, some a) }
  | positional {g₁ : Given} (read : readPositional l g a = .ok g₁)
    (unnamed : g.escaped = true ∨
      g.waiting? = none ∧ l.commandWord? a = none ∧ Form.of a.toList = .plain) : Progress l g a g₁

section Steps

variable {l : Scope} {g g₁ g' : Given} {a : String} {r : List String}
  {cmd : Option (CommandName × List String)}

/-- **After a step the rest is read.** -/
theorem Progress.readArguments_eq (h : Progress l g a g₁) :
    readArguments l g (a :: r) = readArguments l g₁ r := by
  have hword (hform : Form.of a.toList ≠ .plain) : l.commandWord? a = none :=
    Scope.commandWord?_of_dash (Form.head?_of_ne_plain hform)
  rw [readArguments]
  cases h with
  | escape unescaped form =>
    rw [if_neg (by simp [unescaped]), hword (by simp [form]), form]
    cases g.waiting? <;> rfl
  | long unescaped form read =>
    rw [if_neg (by simp [unescaped]), hword (by simp [form]), form]
    cases g.waiting? <;> simp only [read] <;> rfl
  | short unescaped form read =>
    rw [if_neg (by simp [unescaped]), hword (by simp [form]), form]
    cases g.waiting? <;> simp only [read] <;> rfl
  | value unescaped waiting form =>
    rw [if_neg (by simp [unescaped]), waiting, form]
  | positional read unnamed =>
    by_cases escaped : g.escaped = true
    · rw [if_pos escaped, read]
      rfl
    · obtain ⟨waiting, word, form⟩ := unnamed.resolve_left escaped
      rw [if_neg escaped, waiting, word, form, read]
      rfl

/-- **Reading goes on by steps alone**, and ends before the arguments do only at a command. -/
theorem progress_of_readArguments (h : readArguments l g (a :: r) = .ok (g', cmd)) :
    (∃ c, l.commandWord? a = some (.command c) ∧ g' = g ∧ cmd = some (c, r)) ∨
      ∃ g₁, Progress l g a g₁ ∧ readArguments l g₁ r = .ok (g', cmd) := by
  have hok {x : Except Stop Given} (hx : (do readArguments l (← x) r) = .ok (g', cmd)) :
      ∃ g₁, x = .ok g₁ ∧ readArguments l g₁ r = .ok (g', cmd) := by
    cases x with
    | error e => cases hx
    | ok g₁ => exact ⟨g₁, rfl, hx⟩
  rw [readArguments] at h
  split at h
  · next escaped =>
    obtain ⟨g₁, read, hrest⟩ := hok h
    exact .inr ⟨g₁, .positional read (.inl escaped), hrest⟩
  · next unescaped =>
    rw [Bool.not_eq_true] at unescaped
    split at h
    · cases h
    · next word =>
      cases h
      exact .inl ⟨_, word, rfl, rfl⟩
    · next form _ _ => exact .inr ⟨_, .escape unescaped form, h⟩
    · next form _ _ =>
      obtain ⟨g₁, read, hrest⟩ := hok h
      exact .inr ⟨g₁, .long unescaped form read, hrest⟩
    · next form _ _ =>
      obtain ⟨g₁, read, hrest⟩ := hok h
      exact .inr ⟨g₁, .short unescaped form read, hrest⟩
    · next waiting form => exact .inr ⟨_, .value unescaped waiting form, h⟩
    · next waiting word form =>
      obtain ⟨g₁, read, hrest⟩ := hok h
      exact .inr ⟨g₁, .positional read (.inr ⟨waiting, word, form⟩), hrest⟩

end Steps

/-! ## Options that are spelled out -/

/-- The argument that spells an option with its value. -/
def argument (s : Opt × String) : String :=
  s.1.spelled s.2

/-- The option may have the value: a flag has none, and for the others it is neither empty nor
refused. -/
structure Opt.Takes (o : Opt) (v : String) : Prop where
  empty : o.takesValue = false → v = ""
  filled : o.takesValue = true → v ≠ ""
  admitted : o.admits v = true

/-- The option belongs to the scope, and it may have the value. -/
inductive Scope.Reads (l : Scope) : Opt × String → Prop where
  | named {o : Opt} {v : String} (known : o ∈ l.options) (action : o ≠ .help ∧ o ≠ .version)
    (takes : o.Takes v) : l.Reads (o, v)
  | unnamed {v : String} (command : l ≠ none) (takes : Opt.shell.Takes v) : l.Reads (.shell, v)

/-- The options without a name among those that are given. -/
def unnamed (ss : List (Opt × String)) : List Opt :=
  (ss.map Prod.fst).filter (· = .shell)

theorem unnamed_cons (s : Opt × String) (ss : List (Opt × String)) :
    unnamed (s :: ss) = (if s.1 = .shell then [.shell] else []) ++ unnamed ss := by
  unfold unnamed
  rw [List.map_cons, List.filter_cons]
  by_cases h : s.1 = .shell <;> simp [h]

namespace Given

variable {l : Scope} {g : Given} {o : Opt} {v : String}

theorem has_iff : g.has o = true ↔ o ∈ g.values.map Prod.fst := by
  rw [has, List.any_eq_true, List.mem_map]
  simp only [decide_eq_true_eq]

theorem accept_of_takes (hv : o.Takes v) (haction : o ≠ .help ∧ o ≠ .version)
    (hnew : o ∉ g.values.map Prod.fst) :
    g.accept l o (o.given? v) = .ok { g with values := g.values ++ [(o, v)] } := by
  have hhas : g.has o = false := Bool.eq_false_iff.2 (mt has_iff.1 hnew)
  rw [accept, Opt.given?]
  cases ht : o.takesValue with
  | false => simp [haction, hhas, hv.empty ht]
  | true => simp [haction, hhas, hv.filled ht, hv.admitted]

/-- A scope that has two options that exclude each other is refused for two such options. -/
theorem finish_of_conflict {g₀ : Given} {p : Opt} (hresolve : g.resolve l = .ok g₀)
    (hexcludes : excludes o = some p) (ho : g₀.has o = true) (hp : g₀.has p = true) :
    ∃ o p, excludes o = some p ∧ g.finish l = .error (.conflict o p) := by
  have hfound : (g₀.values.find? fun v => (excludes v.1).any g₀.has).isSome = true := by
    obtain ⟨s, hs, rfl⟩ := List.mem_map.1 (has_iff.1 ho)
    exact List.find?_isSome.2 ⟨s, hs, by simp [hexcludes, hp]⟩
  obtain ⟨⟨o, v⟩, hfind⟩ := Option.isSome_iff_exists.1 hfound
  have hany : (excludes o).any g₀.has = true := by simpa using List.find?_some hfind
  obtain ⟨p, hp, -⟩ := (Option.any_eq_true ..).1 hany
  refine ⟨o, p, hp, ?_⟩
  rw [finish, hresolve]
  simp only [bind, Except.bind, hfind, hp]
  rfl

end Given

/-- Once the last option has been looked at, the options `vs` are given in the scope, and the
options `ps` without a name may still come. -/
structure Settled (l : Scope) (g : Given) (vs : List (Opt × String)) (ps : List Opt) : Prop where
  resolved : g.resolve l = .ok ⟨vs, none, ps, false⟩
  waiting : g.waiting? = none
  positionals : g.positionals = ps
  unescaped : g.escaped = false

theorem settled_start (l : Scope) :
    Settled l (Given.start l) [] (l.elim [] CommandName.positionals) :=
  ⟨rfl, rfl, rfl, rfl⟩

namespace Settled

variable {l : Scope} {g : Given} {o : Opt} {v : String} {s : Opt × String}
  {vs ss : List (Opt × String)} {ps : List Opt}

theorem readLong (h : Settled l g vs ps) (ho : o ∈ l.options) (haction : o ≠ .help ∧ o ≠ .version)
    (hv : o.Takes v) (hnew : o ∉ vs.map Prod.fst) :
    readLong l g o.long.toList (o.given? v) = .ok ⟨vs ++ [(o, v)], none, ps, false⟩ := by
  have haccept := Given.accept_of_takes (l := l) (g := ⟨vs, none, ps, false⟩) hv haction hnew
  have hbegin : g.begin l o (o.given? v) = .ok ⟨vs ++ [(o, v)], none, ps, false⟩ := by
    rw [Given.begin, h.resolved]
    have hgiven : ¬ (o.takesValue = true ∧ o.given? v = none) := by
      rintro ⟨ht, hnone⟩
      rw [Opt.given?, if_pos ht] at hnone
      cases hnone
    exact (if_neg hgiven).trans haccept
  rw [Cli.readLong, Scope.long?_eq_some_iff.2 ⟨ho, rfl⟩]
  cases ht : o.takesValue <;> simpa [ht, Opt.given?] using hbegin

/-- One option that is spelled right takes its scope one step further. -/
theorem exists_step (h : Settled l g vs ((if s.1 = .shell then [.shell] else []) ++ ps))
    (hs : l.Reads s) (hnew : s.1 ∉ vs.map Prod.fst) :
    ∃ g₁, Progress l g (argument s) g₁ ∧ Settled l g₁ (vs ++ [s]) ps := by
  cases hs with
  | @named o v known action takes =>
    have hshell := Scope.ne_shell_of_mem_options known
    rw [if_neg hshell, List.nil_append] at h
    exact ⟨_, .long h.unescaped (Form.of_spelled hshell v) (h.readLong known action takes hnew),
      rfl, rfl, rfl, rfl⟩
  | @unnamed v command takes =>
    have hread : readPositional l g v = .ok ⟨vs, some (.shell, some v), ps, false⟩ := by
      rw [readPositional, h.positionals]
      simp only [if_true, List.cons_append, h.resolved]
      rfl
    have haccept := Given.accept_of_takes (l := l) (g := ⟨vs, none, ps, false⟩) takes (by decide)
      hnew
    refine ⟨_, .positional hread (.inr ⟨h.waiting, ?_, Form.of_shell takes.admitted⟩),
      haccept, rfl, rfl, rfl⟩
    rw [Scope.commandWord?, if_pos command]

/-- **Options that are spelled out one by one are read as these options.** -/
theorem exists_readArguments (h : Settled l g vs (unnamed ss ++ ps)) (hss : ∀ s ∈ ss, l.Reads s)
    (hnew : ((vs ++ ss).map Prod.fst).Nodup) (r : List String) :
    ∃ g₁, Settled l g₁ (vs ++ ss) ps ∧
      readArguments l g (ss.map argument ++ r) = readArguments l g₁ r := by
  induction ss generalizing g vs with
  | nil => exact ⟨g, by simpa [unnamed] using h, rfl⟩
  | cons s ss ih =>
    rw [unnamed_cons, List.append_assoc] at h
    have hs : s.1 ∉ vs.map Prod.fst := by
      rw [List.map_append, List.nodup_append] at hnew
      exact fun hmem => hnew.2.2 _ hmem _ List.mem_cons_self rfl
    obtain ⟨g₁, hstep, h₁⟩ := h.exists_step (hss s List.mem_cons_self) hs
    rw [List.append_cons] at hnew ⊢
    obtain ⟨g₂, h₂, hrest⟩ := ih h₁ (fun t ht => hss t (List.mem_cons_of_mem s ht)) hnew
    exact ⟨g₂, h₂, by rw [List.map_cons, List.cons_append, hstep.readArguments_eq, hrest]⟩

/-- A scope is accepted when no two of its options exclude each other. -/
theorem finish (h : Settled l g vs [])
    (hfree : ∀ o p, excludes o = some p → o ∈ vs.map Prod.fst → p ∉ vs.map Prod.fst) :
    g.finish l = .ok ⟨vs, none, [], false⟩ := by
  have hnone : (vs.find? fun v => (excludes v.1).any (Given.has ⟨vs, none, [], false⟩)) =
      none := by
    rw [List.find?_eq_none]
    intro s hs hany
    obtain ⟨p, hp, hhas⟩ := (Option.any_eq_true ..).1 hany
    exact hfree s.1 p hp (List.mem_map_of_mem hs) (Given.has_iff.1 hhas)
  rw [Given.finish, h.resolved]
  simp only [bind, Except.bind, hnone]

end Settled

/-- The options of a scope, together with all its options without a name, are read as what is given
in this scope. -/
theorem exists_settled {l : Scope} {ss : List (Opt × String)} (hss : ∀ s ∈ ss, l.Reads s)
    (hnew : (ss.map Prod.fst).Nodup) (hunnamed : unnamed ss = l.elim [] CommandName.positionals)
    (r : List String) :
    ∃ g, Settled l g ss [] ∧
      readArguments l (Given.start l) (ss.map argument ++ r) = readArguments l g r := by
  have hstart : Settled l (Given.start l) [] (unnamed ss ++ []) := by
    rw [hunnamed, List.append_nil]
    exact settled_start l
  exact hstart.exists_readArguments hss hnew r

end CommitGate.Cli

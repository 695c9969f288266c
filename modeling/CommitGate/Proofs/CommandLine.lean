import CommitGate.Proofs.NamedFlags

/-!
# The grammar of the command line

An invocation is spelled by its settings: the flags that are set, and the values that are given,
each as one argument with a long name. They may come in any order, and those that every command
takes may come before the command or behind it. All these spellings are read as the invocation that
they spell, whatever the values look like. Only the answer yes and the omission of the tests do not
go together, in no arguments at all.

Results:

* `Invocation.lookup_settings`: what an invocation says of each option can be looked up in its
  settings.
* `Invocation.of_settings`: settings make up the invocation again, however they are divided between
  the program and the command.
* `Invocation.exists_spelledBy`, `ofWide_of_spelledBy`, `exists_conflict_of_spelledBy`: every
  invocation has a spelling, and how spellings are read.
* `arguments_faithful`: every spelling of an invocation is read as this invocation, and arguments
  that ask for an answer and for no tests are refused.
-/

namespace CommitGate.Cli

/-! ## Settings -/

/-- A flag among the settings, if it is set. -/
def Opt.flag (o : Opt) (b : Bool) : List (Opt × String) :=
  if b then [(o, "")] else []

/-- A value among the settings, if there is one. -/
def Opt.valued (o : Opt) (v : Option String) : List (Opt × String) :=
  v.toList.map fun v => (o, v)

namespace Command

/-- The name that a command is called by. -/
def name : Command → CommandName
  | .run _ => .run
  | .scan _ _ => .scan
  | .init _ _ => .init
  | .install _ => .install
  | .uninstall => .uninstall
  | .config _ => .config
  | .completions _ => .completions

/-- What is given to a command. -/
def settings : Command → List (Opt × String)
  | .run o => Opt.root.valued (o.root.map Path.wide) ++ Opt.yes.flag o.yes ++
    Opt.noTests.flag o.noTests
  | .scan root json => Opt.root.valued (root.map Path.wide) ++ Opt.json.flag json
  | .init preset force => Opt.preset.valued (preset.map Preset.name) ++ Opt.force.flag force
  | .install force => Opt.force.flag force
  | .uninstall => []
  | .config raw => Opt.raw.flag raw
  | .completions shell => Opt.shell.valued (some shell.keyword)

/-- The root that is given to a command. -/
def root? : Command → Option Path
  | .run o => o.root
  | .scan root _ => root
  | _ => none

end Command

namespace Invocation

/-- What is given to the program and to its command, where the choice of colours may be told. -/
def settings (i : Invocation) (color : Option ColorChoice) : List (Opt × String) :=
  Opt.verbose.flag i.verbose ++ Opt.quiet.flag i.quiet ++
    Opt.color.valued (color.map ColorChoice.keyword) ++
    Opt.config.valued (i.config.map Path.wide) ++ i.command.elim [] Command.settings

/-- The paths that are given are not empty, so that they can be told. -/
structure Spellable (i : Invocation) : Prop where
  config : i.config ≠ some ⟨""⟩
  root : ∀ c ∈ i.command, c.root? ≠ some ⟨""⟩

/-- The answer to the prompt is given, and no tests are to be run. -/
def Conflicting (i : Invocation) : Prop :=
  ∃ o, i.command = some (.run o) ∧ o.yes = true ∧ o.noTests = true

/-- The settings in any order, divided into those before the command and those behind it, where only
options that every command takes may come before. A choice of colours that is the one without a
choice need not be told. -/
structure Divides (i : Invocation) (color : Option ColorChoice)
    (before after : List (Opt × String)) : Prop where
  colored : color.getD .auto = i.color
  all : (before ++ after).Perm (i.settings color)
  global : ∀ s ∈ before, s.1 ∈ Opt.globals

/-- The arguments spell an invocation: each setting is one argument. -/
inductive SpelledBy (i : Invocation) : List String → Prop where
  | alone {color : Option ColorChoice} {before : List (Opt × String)} (none : i.command = none)
    (divides : i.Divides color before []) : SpelledBy i (before.map argument)
  | command {color : Option ColorChoice} {before after : List (Opt × String)} {c : Command}
    {word : String} (called : i.command = some c) (named : CommandName.ofWord? word = some c.name)
    (divides : i.Divides color before after) :
    SpelledBy i (before.map argument ++ word :: after.map argument)

end Invocation

/-! ## What settings say -/

section Lookup

variable {o p : Opt} {l m : List (Opt × String)}

theorem lookup_eq_some_iff {v : String} (h : (l.map Prod.fst).Nodup) :
    l.lookup o = some v ↔ (o, v) ∈ l := by
  induction l with
  | nil => simp
  | cons s l ih =>
    obtain ⟨p, w⟩ := s
    rw [List.map_cons, List.nodup_cons] at h
    by_cases hp : o = p
    · subst hp
      have hnot : (o, v) ∉ l := fun hmem => h.1 (List.mem_map.2 ⟨_, hmem, rfl⟩)
      simp [hnot, eq_comm]
    · have hb : (o == p) = false := by simpa using hp
      rw [List.lookup_cons, hb]
      simp [hp, ih h.2]

theorem lookup_perm (h : l.Perm m) (hl : (l.map Prod.fst).Nodup) : l.lookup o = m.lookup o := by
  have hm : (m.map Prod.fst).Nodup := (h.map Prod.fst).nodup_iff.1 hl
  refine Option.ext fun v => ?_
  rw [lookup_eq_some_iff hl, lookup_eq_some_iff hm, h.mem_iff]

theorem lookup_eq_none_iff : l.lookup o = none ↔ o ∉ l.map Prod.fst := by
  induction l with
  | nil => simp
  | cons s l ih =>
    rw [List.lookup_cons, List.map_cons, List.mem_cons, not_or, ← ih]
    cases h : o == s.1 <;> simp_all

theorem lookup_singleton (v : String) : [(p, v)].lookup o = if o = p then some v else none := by
  by_cases h : o = p
  · simp [h]
  · have hb : (o == p) = false := by simpa using h
    rw [List.lookup_cons, hb, if_neg h]
    rfl

@[simp]
theorem lookup_flag (b : Bool) : (p.flag b).lookup o = if o = p ∧ b then some "" else none := by
  cases b with
  | false => simp [Opt.flag]
  | true => simp [Opt.flag, lookup_singleton]

@[simp]
theorem lookup_valued (v : Option String) : (p.valued v).lookup o = if o = p then v else none := by
  cases v with
  | none => simp [Opt.valued]
  | some v => simp [Opt.valued, lookup_singleton]

theorem keys_flag (b : Bool) : ((o.flag b).map Prod.fst).Sublist [o] := by
  cases b <;> simp [Opt.flag]

theorem keys_valued (v : Option String) : ((o.valued v).map Prod.fst).Sublist [o] := by
  cases v <;> simp [Opt.valued]

end Lookup

namespace Opt

variable {o : Opt} {s : Opt × String}

theorem mem_valued_iff {v : Option String} : s ∈ o.valued v ↔ ∃ w, v = some w ∧ s = (o, w) := by
  simp [valued, eq_comm]

theorem takes_of_mem_flag {b : Bool} (ho : o.takesValue = false) (hs : s ∈ o.flag b) :
    s.1.Takes s.2 := by
  obtain rfl : s = (o, "") := by
    cases b with
    | false => cases hs
    | true => exact List.mem_singleton.1 hs
  refine ⟨fun _ => rfl, fun h => absurd (h.symm.trans ho) (by simp), ?_⟩
  revert ho
  cases o <;> decide

/-- Every path but the empty one may be told. -/
theorem takes_of_path (ho : o = .config ∨ o = .root) {p : Option Path} (hp : p ≠ some ⟨""⟩)
    (hs : s ∈ o.valued (p.map Path.wide)) : s.1.Takes s.2 := by
  obtain ⟨w, hw, rfl⟩ := mem_valued_iff.1 hs
  obtain ⟨q, rfl, rfl⟩ := Option.map_eq_some_iff.1 hw
  have hq : q.wide ≠ "" := fun h => hp (congrArg some (q.ofWide_wide.symm.trans (by rw [h]; rfl)))
  rcases ho with rfl | rfl <;> exact ⟨nofun, fun _ => hq, rfl⟩

end Opt

/-! ## Options of an invocation -/

/-- The options of every command that only set something. -/
def Opt.common : List Opt := [.verbose, .quiet, .color, .config]

theorem Command.keys_settings (c : Command) :
    (c.settings.map Prod.fst).Sublist (c.name.options ++ c.name.positionals) := by
  cases c with
  | run o =>
    rw [settings, List.map_append, List.map_append]
    exact ((keys_valued _).append (keys_flag _)).append (keys_flag _)
  | scan root json =>
    rw [settings, List.map_append]
    exact (keys_valued _).append (keys_flag _)
  | init preset force =>
    rw [settings, List.map_append]
    exact (keys_valued _).append (keys_flag _)
  | install force => exact keys_flag _
  | uninstall => exact List.Sublist.refl _
  | config raw => exact keys_flag _
  | completions shell => exact keys_valued _

theorem Command.takes_of_mem_settings {c : Command} {s : Opt × String}
    (hroot : c.root? ≠ some ⟨""⟩) (hs : s ∈ c.settings) : s.1.Takes s.2 := by
  cases c with
  | run o =>
    rw [settings, List.mem_append, List.mem_append] at hs
    rcases hs with (hs | hs) | hs
    · exact Opt.takes_of_path (.inr rfl) hroot hs
    · exact Opt.takes_of_mem_flag rfl hs
    · exact Opt.takes_of_mem_flag rfl hs
  | scan root json =>
    rcases List.mem_append.1 hs with hs | hs
    · exact Opt.takes_of_path (.inr rfl) hroot hs
    · exact Opt.takes_of_mem_flag rfl hs
  | init preset force =>
    rcases List.mem_append.1 hs with hs | hs
    · obtain ⟨w, hw, rfl⟩ := Opt.mem_valued_iff.1 hs
      obtain ⟨p, -, rfl⟩ := Option.map_eq_some_iff.1 hw
      exact ⟨nofun, fun _ => by cases p <;> decide, by simp [Opt.admits, Preset.ofName?_name]⟩
    · exact Opt.takes_of_mem_flag rfl hs
  | install force => exact Opt.takes_of_mem_flag rfl hs
  | uninstall => cases hs
  | config raw => exact Opt.takes_of_mem_flag rfl hs
  | completions shell =>
    obtain ⟨w, hw, rfl⟩ := Opt.mem_valued_iff.1 hs
    cases hw
    exact ⟨nofun, fun _ => by cases shell <;> decide, by cases shell <;> decide⟩

namespace Invocation

variable {i : Invocation} {color : Option ColorChoice} {s : Opt × String}

theorem keys_settings (i : Invocation) (color : Option ColorChoice) :
    ((i.settings color).map Prod.fst).Sublist
      (Opt.common ++ i.command.elim [] fun c => c.name.options ++ c.name.positionals) := by
  rw [settings, List.map_append, List.map_append, List.map_append, List.map_append]
  refine (((keys_flag _).append (keys_flag _)).append (keys_valued _) |>.append
    (keys_valued _)).append ?_
  cases i.command with
  | none => exact List.Sublist.refl _
  | some c => exact c.keys_settings

theorem nodup_settings (i : Invocation) (color : Option ColorChoice) :
    ((i.settings color).map Prod.fst).Nodup := by
  refine (keys_settings i color).nodup ?_
  cases i.command with
  | none => decide
  | some c =>
    change (Opt.common ++ (c.name.options ++ c.name.positionals)).Nodup
    cases c.name <;> decide

theorem takes_of_mem_settings (hi : i.Spellable) (hs : s ∈ i.settings color) :
    s.1.Takes s.2 := by
  rw [settings] at hs
  simp only [List.mem_append] at hs
  rcases hs with (((hs | hs) | hs) | hs) | hs
  · exact Opt.takes_of_mem_flag rfl hs
  · exact Opt.takes_of_mem_flag rfl hs
  · obtain ⟨w, hw, rfl⟩ := Opt.mem_valued_iff.1 hs
    obtain ⟨c, -, rfl⟩ := Option.map_eq_some_iff.1 hw
    exact ⟨nofun, fun _ => by cases c <;> decide, by cases c <;> decide⟩
  · exact Opt.takes_of_path (.inl rfl) hi.config hs
  · cases hc : i.command with
    | none =>
      rw [hc] at hs
      cases hs
    | some c =>
      rw [hc] at hs
      exact Command.takes_of_mem_settings (hi.root c hc) hs

/-- What is given to the program belongs to every scope. -/
theorem reads_of_common {l : Scope} (hs : s.1 ∈ Opt.common) (htakes : s.1.Takes s.2) :
    l.Reads s := by
  refine .named (List.mem_append_right _ ?_) ?_ htakes
  · revert hs
    cases s.1 <;> decide
  · revert hs
    cases s.1 <;> decide

/-- What is given to a command belongs to its scope. -/
theorem reads_of_command {c : CommandName} (hs : s.1 ∈ c.options ++ c.positionals)
    (htakes : s.1.Takes s.2) : Scope.Reads (some c) s := by
  rcases List.mem_append.1 hs with hs | hs
  · refine .named (List.mem_append_left _ hs) ?_ htakes
    revert hs
    cases c <;> cases s.1 <;> decide
  · have hshell : s.1 = .shell := by
      revert hs
      cases c <;> cases s.1 <;> decide
    obtain ⟨o, v⟩ := s
    dsimp only at hshell
    subst hshell
    exact .unnamed (by simp) htakes

end Invocation

/-! ## Invocations of settings -/

namespace Given

variable {g : Given} {o : Opt}

theorem has_eq (g : Given) (o : Opt) : g.has o = (g.values.lookup o).isSome := by
  rw [Bool.eq_iff_iff, has_iff, Option.isSome_iff_ne_none, ne_eq, lookup_eq_none_iff, not_not]

theorem isSome_ite (b : Bool) : (if b = true then some "" else none).isSome = b := by
  cases b <;> rfl

theorem has_of_lookup {b : Bool} (h : g.values.lookup o = if b then some "" else none) :
    g.has o = b := by
  rw [has_eq, h, isSome_ite]

theorem path?_of_lookup {p : Option Path} (h : g.values.lookup o = p.map Path.wide) :
    g.path? o = p := by
  rw [path?, value?, h]
  cases p with
  | none => rfl
  | some p => exact congrArg some p.ofWide_wide

/-- A command is made up again of what is given to it. -/
theorem command?_of_settings {c : Command}
    (h : ∀ o ∉ Opt.globals, g.values.lookup o = c.settings.lookup o) :
    g.command? c.name = some c := by
  cases c with
  | run o =>
    have hroot : g.path? .root = o.root :=
      path?_of_lookup (by simp [h .root (by decide), Command.settings, List.lookup_append])
    have hyes : g.has .yes = o.yes :=
      has_of_lookup (by simp [h .yes (by decide), Command.settings, List.lookup_append])
    have hnoTests : g.has .noTests = o.noTests :=
      has_of_lookup (by simp [h .noTests (by decide), Command.settings, List.lookup_append])
    rw [Command.name, command?, hroot, hyes, hnoTests]
  | scan root json =>
    have hroot : g.path? .root = root :=
      path?_of_lookup (by simp [h .root (by decide), Command.settings, List.lookup_append])
    have hjson : g.has .json = json :=
      has_of_lookup (by simp [h .json (by decide), Command.settings, List.lookup_append])
    rw [Command.name, command?, hroot, hjson]
  | init preset force =>
    have hpreset : g.value? .preset = preset.map Preset.name := by
      simp [value?, h .preset (by decide), Command.settings, List.lookup_append]
    have hforce : g.has .force = force :=
      has_of_lookup (by simp [h .force (by decide), Command.settings, List.lookup_append])
    rw [Command.name, command?, hpreset, hforce]
    cases preset <;> simp [Preset.ofName?_name]
  | install force =>
    have hforce : g.has .force = force :=
      has_of_lookup (by simp [h .force (by decide), Command.settings])
    rw [Command.name, command?, hforce]
  | uninstall => rfl
  | config raw =>
    have hraw : g.has .raw = raw :=
      has_of_lookup (by simp [h .raw (by decide), Command.settings])
    rw [Command.name, command?, hraw]
  | completions shell =>
    have hshell : g.value? .shell = some shell.keyword := by
      simp [value?, h .shell (by decide), Command.settings]
    rw [Command.name, command?, hshell]
    cases shell <;> decide

end Given

namespace Invocation

variable {i : Invocation} {color : Option ColorChoice} {s : Opt × String}

/-- What an invocation says of an option. -/
def value? (i : Invocation) (color : Option ColorChoice) : Opt → Option String
  | .verbose => if i.verbose then some "" else none
  | .quiet => if i.quiet then some "" else none
  | .color => color.map ColorChoice.keyword
  | .config => i.config.map Path.wide
  | o => (i.command.elim [] Command.settings).lookup o

theorem lookup_settings (i : Invocation) (color : Option ColorChoice) (o : Opt) :
    (i.settings color).lookup o = i.value? color o := by
  have hcommon (ho : o ∈ Opt.common) : (i.command.elim [] Command.settings).lookup o = none := by
    rw [lookup_eq_none_iff]
    cases i.command with
    | none => exact List.not_mem_nil
    | some c =>
      intro hmem
      have hcommand := c.keys_settings.subset hmem
      revert ho hcommand
      cases c.name <;> cases o <;> decide
  rw [settings]
  cases o with
  | verbose | quiet | color | config =>
    simp [value?, List.lookup_append, hcommon (by decide)]
  | _ => simp [value?, List.lookup_append]

/-- **An invocation is made up again of its settings**, however they are divided between the program
and its command. -/
theorem of_settings {outer own : Given} {inner : Option (CommandName × Given)}
    (hown : inner.elim (Given.start none) (·.2) = own) (hcolor : color.getD .auto = i.color)
    (hall : ∀ o, (own.values ++ outer.values).lookup o = i.value? color o)
    (hcommand : (inner.bind fun (c, g) => g.command? c) = i.command) :
    Invocation.of outer inner = i := by
  have hvalue (o : Opt) : (own.value? o).or (outer.value? o) = i.value? color o := by
    rw [← hall, List.lookup_append]
    rfl
  have hhas (o : Opt) : (own.has o || outer.has o) = (i.value? color o).isSome := by
    rw [← hvalue, Given.has_eq, Given.has_eq, Option.isSome_or]
    rfl
  have hverbose := (hhas .verbose).trans (Given.isSome_ite i.verbose)
  have hquiet := (hhas .quiet).trans (Given.isSome_ite i.quiet)
  have hchoice : ((i.value? color .color).bind ColorChoice.ofKeyword?).getD .auto = i.color := by
    have hkeyword (c : ColorChoice) : ColorChoice.ofKeyword? c.keyword = some c := by
      cases c <;> decide
    rw [← hcolor, value?]
    cases color <;> simp [hkeyword]
  have hconfig : (i.value? color .config).map Path.ofWide = i.config := by
    rw [value?]
    cases i.config with
    | none => rfl
    | some p => exact congrArg some p.ofWide_wide
  rw [← hvalue] at hchoice hconfig
  subst hown
  obtain ⟨_, _, _, _, _⟩ := i
  rw [Invocation.of, Invocation.mk.injEq]
  exact ⟨hcommand, hverbose, hquiet, hchoice, hconfig⟩

theorem mem_keys_iff {o : Opt} :
    o ∈ (i.settings color).map Prod.fst ↔ (i.value? color o).isSome = true := by
  rw [← lookup_settings, Option.isSome_iff_ne_none, ne_eq, lookup_eq_none_iff, not_not]

/-- The settings show whether an answer is given and no tests are to be run. -/
theorem conflicting_iff (color : Option ColorChoice) : i.Conflicting ↔
    .yes ∈ (i.settings color).map Prod.fst ∧ .noTests ∈ (i.settings color).map Prod.fst := by
  rw [mem_keys_iff, mem_keys_iff, Conflicting]
  simp only [value?]
  cases i.command with
  | none => simp
  | some c => cases c <;> simp [Command.settings, List.lookup_append]

end Invocation

/-! ## Spellings -/

theorem not_mem_keys_of_common {ss : List (Opt × String)} {o : Opt}
    (h : ∀ s ∈ ss, s.1 ∈ Opt.common) (ho : o ∉ Opt.common) : o ∉ ss.map Prod.fst := by
  intro hmem
  obtain ⟨s, hs, rfl⟩ := List.mem_map.1 hmem
  exact ho (h s hs)

theorem unnamed_of_nodup {ss : List (Opt × String)} (h : (ss.map Prod.fst).Nodup) :
    unnamed ss = if .shell ∈ ss.map Prod.fst then [.shell] else [] := by
  rw [unnamed, List.filter_eq, h.count]
  split <;> rfl

namespace Invocation.Divides

variable {i : Invocation} {color : Option ColorChoice} {before after : List (Opt × String)}
  {c : Command} {o : Opt} {s : Opt × String}

theorem nodup (h : i.Divides color before after) : ((before ++ after).map Prod.fst).Nodup :=
  (h.all.map Prod.fst).nodup_iff.2 (nodup_settings i color)

theorem nodup_before (h : i.Divides color before after) : (before.map Prod.fst).Nodup :=
  (List.nodup_append.1 (List.map_append ▸ h.nodup)).1

theorem nodup_after (h : i.Divides color before after) : (after.map Prod.fst).Nodup :=
  (List.nodup_append.1 (List.map_append ▸ h.nodup)).2.1

/-- Only what every command takes may stand before the command. -/
theorem common (h : i.Divides color before after) : ∀ s ∈ before, s.1 ∈ Opt.common := by
  intro s hs
  have hmem := (keys_settings i color).subset
    (List.mem_map_of_mem (h.all.subset (List.mem_append_left after hs)))
  have hglobal := h.global s hs
  cases hc : i.command with
  | none => simpa [hc] using hmem
  | some c =>
    rw [hc] at hmem
    change s.1 ∈ Opt.common ++ (c.name.options ++ c.name.positionals) at hmem
    revert hmem hglobal
    cases c.name <;> cases s.1 <;> decide

/-- All else stands behind it. -/
theorem mem_after_iff (h : i.Divides color before after) (ho : o ∉ Opt.common) :
    o ∈ after.map Prod.fst ↔ o ∈ (i.settings color).map Prod.fst := by
  rw [← (h.all.map Prod.fst).mem_iff, List.map_append, List.mem_append,
    or_iff_right (not_mem_keys_of_common h.common ho)]

theorem lookup (h : i.Divides color before after) (o : Opt) :
    (after ++ before).lookup o = i.value? color o := by
  rw [← lookup_settings]
  exact lookup_perm (List.perm_append_comm.trans h.all)
    ((List.perm_append_comm.map Prod.fst).nodup_iff.1 h.nodup)

theorem takes (h : i.Divides color before after) (hi : i.Spellable) (hs : s ∈ before ++ after) :
    s.1.Takes s.2 :=
  takes_of_mem_settings hi (h.all.subset hs)

/-- The program reads what stands before the command, and accepts it. -/
theorem exists_outer (h : i.Divides color before after) (hi : i.Spellable) (r : List String) :
    ∃ g, Settled none g before [] ∧ g.finish none = .ok ⟨before, none, [], false⟩ ∧
      readArguments none (Given.start none) (before.map argument ++ r) =
        readArguments none g r := by
  have hunnamed : unnamed before = [] := by
    rw [unnamed_of_nodup h.nodup_before, if_neg (not_mem_keys_of_common h.common (by decide))]
  obtain ⟨g, hg, hread⟩ := exists_settled (l := none)
    (fun s hs => reads_of_common (h.common s hs) (h.takes hi (List.mem_append_left after hs)))
    h.nodup_before hunnamed r
  refine ⟨g, hg, hg.finish fun o p hexcludes ho => ?_, hread⟩
  obtain ⟨s, hs, rfl⟩ := List.mem_map.1 ho
  have hcommon := h.common s hs
  revert hexcludes hcommon
  cases s.1 <;> simp [excludes, Opt.common]

/-- The command reads what stands behind it. -/
theorem exists_inner (h : i.Divides color before after) (hi : i.Spellable)
    (hc : i.command = some c) :
    ∃ g, Settled (some c.name) g after [] ∧
      readArguments (some c.name) (Given.start (some c.name)) (after.map argument) =
        .ok (g, none) := by
  have hunnamed : unnamed after = c.name.positionals := by
    rw [unnamed_of_nodup h.nodup_after]
    simp only [h.mem_after_iff (show Opt.shell ∉ Opt.common by decide), mem_keys_iff, value?, hc]
    cases c <;> simp [Command.settings, List.lookup_append, Command.name, CommandName.positionals]
  have hreads : ∀ s ∈ after, Scope.Reads (some c.name) s := by
    intro s hs
    have htakes := h.takes hi (List.mem_append_right before hs)
    have hmem := (keys_settings i color).subset
      (List.mem_map_of_mem (h.all.subset (List.mem_append_right before hs)))
    rw [hc] at hmem
    rcases List.mem_append.1 hmem with hcommon | hcommand
    · exact reads_of_common hcommon htakes
    · exact reads_of_command hcommand htakes
  obtain ⟨g, hg, hread⟩ := exists_settled hreads h.nodup_after hunnamed []
  exact ⟨g, hg, by simpa [readArguments] using hread⟩

/-- What the program and its command were given is the invocation. -/
theorem of_divided (h : i.Divides color before after) (hc : i.command = some c) :
    Invocation.of ⟨before, none, [], false⟩ (some (c.name, ⟨after, none, [], false⟩)) = i := by
  have hinner : ∀ o ∉ Opt.globals, after.lookup o = c.settings.lookup o := by
    intro o ho
    have hcommon : o ∉ Opt.common := fun hmem => ho (by revert hmem; cases o <;> decide)
    have hnone : before.lookup o = none :=
      lookup_eq_none_iff.2 (not_mem_keys_of_common h.common hcommon)
    have hvalue := h.lookup o
    rw [List.lookup_append, hnone, Option.or_none] at hvalue
    rw [hvalue]
    revert hcommon
    cases o <;> simp [value?, hc, Opt.common]
  exact of_settings rfl h.colored h.lookup ((Given.command?_of_settings hinner).trans hc.symm)

theorem ofWide_alone (h : i.Divides color before []) (hi : i.Spellable)
    (hnone : i.command = none) : ofWide (before.map argument) = .ok i := by
  obtain ⟨outer, -, hfinish, hread⟩ := h.exists_outer hi []
  rw [List.append_nil, readArguments] at hread
  rw [ofWide, hread]
  simp only [bind, Except.bind, hfinish]
  exact congrArg Except.ok (of_settings rfl h.colored h.lookup hnone.symm)

/-- A call is accepted if its command accepts what stands behind it, and refused for the same
reason. -/
theorem exists_ofWide_eq {word : String} (h : i.Divides color before after)
    (hi : i.Spellable) (hc : i.command = some c)
    (hword : CommandName.ofWord? word = some c.name) :
    ∃ g, Settled (some c.name) g after [] ∧
      ofWide (before.map argument ++ word :: after.map argument) =
        (g.finish (some c.name)).map fun inner =>
          Invocation.of ⟨before, none, [], false⟩ (some (c.name, inner)) := by
  obtain ⟨outer, houter, hfinish, hread⟩ := h.exists_outer hi (word :: after.map argument)
  obtain ⟨inner, hinner, hrest⟩ := h.exists_inner hi hc
  have hcommand : readArguments none (Given.start none)
      (before.map argument ++ word :: after.map argument) =
      .ok (outer, some (c.name, after.map argument)) := by
    rw [hread, readArguments, if_neg (by simp [houter.unescaped]), houter.waiting,
      Scope.commandWord?_of_ofWord? hword]
  refine ⟨inner, hinner, ?_⟩
  rw [ofWide, hcommand]
  simp only [bind, Except.bind, hrest]
  cases inner.finish (some c.name) <;> simp only [hfinish, Except.map]

end Invocation.Divides

section Spellings

variable {i : Invocation} {args : List String}

/-- Every invocation can be spelled: with a command, all its settings may stand behind it. -/
theorem Invocation.exists_spelledBy (i : Invocation) : ∃ args, i.SpelledBy args := by
  cases hc : i.command with
  | none =>
    have hdivides : i.Divides (some i.color) (i.settings (some i.color)) [] := by
      refine ⟨rfl, by rw [List.append_nil], fun s hs => ?_⟩
      have hcommon := (keys_settings i _).subset (List.mem_map_of_mem hs)
      rw [hc] at hcommon
      revert hcommon
      cases s.1 <;> decide
    exact ⟨_, .alone hc hdivides⟩
  | some c =>
    have hdivides : i.Divides (some i.color) [] (i.settings (some i.color)) :=
      ⟨rfl, List.Perm.refl _, nofun⟩
    exact ⟨_, .command hc (CommandName.ofWord?_name c.name) hdivides⟩

/-- **Every spelling of an invocation is read as this invocation.** -/
theorem ofWide_of_spelledBy (hi : i.Spellable) (h : i.SpelledBy args)
    (hfree : ¬ i.Conflicting) : Invocation.ofWide args = .ok i := by
  cases h with
  | alone hnone h => exact h.ofWide_alone hi hnone
  | @command color before after c word hc hword h =>
    obtain ⟨inner, hinner, heq⟩ := h.exists_ofWide_eq hi hc hword
    rw [Invocation.conflicting_iff color, ← h.mem_after_iff (by decide),
      ← h.mem_after_iff (by decide)] at hfree
    have haccepted := hinner.finish fun o p hexcludes ho hp => hfree (by
      cases o <;> cases hexcludes
      · exact ⟨ho, hp⟩
      · exact ⟨hp, ho⟩)
    rw [heq, haccepted, Except.map, h.of_divided hc]

/-- An invocation that asks for an answer and for no tests is refused for this. -/
theorem exists_conflict_of_spelledBy (hi : i.Spellable) (h : i.SpelledBy args)
    (hconflict : i.Conflicting) :
    ∃ o p, excludes o = some p ∧ Invocation.ofWide args = .error (.conflict o p) := by
  cases h with
  | alone hnone h =>
    obtain ⟨o, hrun, -⟩ := hconflict
    cases hnone.symm.trans hrun
  | @command color before after c word hc hword h =>
    obtain ⟨inner, hinner, heq⟩ := h.exists_ofWide_eq hi hc hword
    rw [Invocation.conflicting_iff color, ← h.mem_after_iff (by decide),
      ← h.mem_after_iff (by decide)] at hconflict
    obtain ⟨o, p, hexcludes, hrefused⟩ := Given.finish_of_conflict (o := .yes) (p := .noTests)
      hinner.resolved rfl (Given.has_iff.2 hconflict.1) (Given.has_iff.2 hconflict.2)
    exact ⟨o, p, hexcludes, by rw [heq, hrefused, Except.map]⟩

end Spellings

/-! ## The grammar -/

/-- **The command line has a faithful grammar.** Every invocation whose paths are not empty is read
from each of its spellings: its settings as arguments with long names, in any order, with those that
every command takes before the command or behind it. Only an invocation that asks for an answer and
for no tests is refused, for this conflict. And no arguments at all that name both flags are
accepted. -/
theorem arguments_faithful :
    (∀ (i : Invocation) (args : List RawText), i.Spellable → i.SpelledBy (args.map RawText.wide) →
      ¬ i.Conflicting → Invocation.ofArguments args = .ok i) ∧
    (∀ (i : Invocation) (args : List RawText), i.Spellable → i.SpelledBy (args.map RawText.wide) →
      i.Conflicting →
        ∃ o p, excludes o = some p ∧ Invocation.ofArguments args = .error (.conflict o p)) ∧
    ∀ (args : List RawText) (a b : RawText), a ∈ args → b ∈ args → Opt.yes.NamedBy a.wide →
      Opt.noTests.NamedBy b.wide → ∃ stop, Invocation.ofArguments args = .error stop :=
  ⟨fun _ _ => ofWide_of_spelledBy, fun _ _ => exists_conflict_of_spelledBy,
    fun _ _ _ ha hb => exists_stop_of_namedBy (List.mem_map_of_mem ha) (List.mem_map_of_mem hb)⟩

/-- Values that look like an option, like more settings and like a command. -/
def lookalikes : Invocation where
  command := some (.run { root := some ⟨"--yes"⟩, noTests := true })
  verbose := true
  color := .never
  config := some ⟨"a=b"⟩

/-- An answer, and no tests. -/
def undecided : Invocation where
  command := some (.run { yes := true, noTests := true })

theorem arguments_faithful_lookalikes :
    Invocation.ofArguments
      ["--config=a=b", "--color=never", "r", "--no-tests", "--root=--yes", "--verbose"] =
        .ok lookalikes ∧
    (∃ o p, excludes o = some p ∧
      Invocation.ofArguments ["run", "--no-tests", "--yes"] = .error (.conflict o p)) ∧
    ∃ stop, Invocation.ofArguments ["-q", "run", "-vy", "--root", "a", "--no-tests"] =
      .error stop := by
  obtain ⟨hread, hconflict, hrefused⟩ := arguments_faithful
  have hspells : lookalikes.SpelledBy
      ["--config=a=b", "--color=never", "r", "--no-tests", "--root=--yes", "--verbose"] :=
    @Invocation.SpelledBy.command _ (some .never) [(.config, "a=b"), (.color, "never")]
      [(.noTests, ""), (.root, "--yes"), (.verbose, "")] _ "r" rfl (by decide)
      ⟨rfl, by decide, by decide⟩
  have hboth : undecided.SpelledBy ["run", "--no-tests", "--yes"] :=
    @Invocation.SpelledBy.command _ none [] [(.noTests, ""), (.yes, "")] _ "run" rfl (by decide)
      ⟨rfl, by decide, by decide⟩
  refine ⟨hread _ _ ⟨by decide, ?_⟩ hspells ?_, hconflict _ _ ⟨by decide, ?_⟩ hboth ?_,
    hrefused _ "-vy" "--no-tests" (by decide) (by decide) ?_ (.inl rfl)⟩
  · rintro c ⟨⟩
    decide
  · rintro ⟨o, ⟨⟩, hyes, -⟩
    cases hyes
  · rintro c ⟨⟩
    decide
  · exact ⟨_, rfl, rfl, rfl⟩
  · exact .inr ⟨['v', 'y'], 'y', by decide, by decide, by decide, rfl⟩

end CommitGate.Cli

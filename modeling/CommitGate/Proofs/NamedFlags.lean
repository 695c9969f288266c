import CommitGate.Proofs.Arguments

/-!
# Flags that arguments name

What is given in a scope is never taken back. So an argument that names a flag leaves its trace: the
flag is given when the scope has been read. Only behind two dashes an argument may stand for a value
without a name, but no such value looks like a flag, and it is refused in the end.

Results:

* `Progress.grows`, `Progress.refused`: what each step keeps.
* `Progress.has_of_namedBy`, `has_of_readArguments`: an argument that names a flag gives it.
* `exists_stop_of_namedBy`: no arguments that name both an answer and the omission of the tests are
  accepted.
-/

namespace CommitGate.Cli

/-! ## What has been given -/

/-- Both parts of a sequence succeed if the whole does. -/
theorem exists_of_bind_eq_ok {ε α β : Type} {x : Except ε α} {f : α → Except ε β} {b : β}
    (h : x >>= f = .ok b) : ∃ a, x = .ok a ∧ f a = .ok b := by
  cases x with
  | error e => cases h
  | ok a => exact ⟨a, rfl, h⟩

/-- What was given is given still, and no more arguments without a name may come. -/
structure Given.Grows (g g₁ : Given) : Prop where
  values : g.values <+: g₁.values
  positionals : g₁.positionals <:+ g.positionals

/-- The value that has not been looked at yet is going to be refused. -/
def Given.Refused (g : Given) : Prop :=
  ∃ o v, g.pending = some (o, some v) ∧ o.takesValue = true ∧ o.admits v = false

namespace Given

variable {l : Scope} {g g₁ g₂ : Given} {o : Opt} {value : Option String}

theorem Grows.refl (g : Given) : g.Grows g := ⟨List.prefix_rfl, List.suffix_rfl⟩

theorem Grows.trans (h : g.Grows g₁) (h₁ : g₁.Grows g₂) : g.Grows g₂ :=
  ⟨h.values.trans h₁.values, h₁.positionals.trans h.positionals⟩

theorem Grows.has (h : g.Grows g₁) (ho : g.has o = true) : g₁.has o = true := by
  rw [has_iff] at ho ⊢
  exact (h.values.map Prod.fst).subset ho

theorem accept_eq_ok (h : g.accept l o value = .ok g₁) :
    g₁ = { g with values := g.values ++ [(o, value.getD "")] } ∧
      ¬ (o.takesValue = true ∧ o.admits (value.getD "") = false) := by
  unfold accept at h
  repeat' split at h
  all_goals cases h
  next hadmits => exact ⟨rfl, by simpa using hadmits⟩

theorem grows_of_accept (h : g.accept l o value = .ok g₁) : g.Grows g₁ ∧ g₁.has o = true := by
  obtain ⟨rfl, -⟩ := accept_eq_ok h
  exact ⟨⟨List.prefix_append .., List.suffix_rfl⟩, has_iff.2 (by simp)⟩

theorem grows_of_resolve (h : g.resolve l = .ok g₁) : g.Grows g₁ := by
  unfold resolve at h
  split at h
  · cases h
    exact .refl g
  · exact ⟨(grows_of_accept h).1.values, (grows_of_accept h).1.positionals⟩

theorem Refused.resolve_ne_ok (h : g.Refused) : g.resolve l ≠ .ok g₁ := by
  obtain ⟨o, v, hpending, htakes, hadmits⟩ := h
  intro hresolve
  rw [resolve, hpending] at hresolve
  exact (accept_eq_ok hresolve).2 ⟨htakes, hadmits⟩

theorem Refused.waiting? (h : g.Refused) : g.waiting? = none := by
  obtain ⟨o, v, hpending, -⟩ := h
  rw [Given.waiting?, hpending]

/-- To begin an option settles the one before. -/
theorem begin_eq_ok (h : g.begin l o value = .ok g₁) :
    (∃ g₀, g.resolve l = .ok g₀) ∧ g.Grows g₁ ∧ (o.takesValue = false → g₁.has o = true) := by
  obtain ⟨g₀, hresolve, h⟩ := exists_of_bind_eq_ok h
  have hgrows := grows_of_resolve hresolve
  refine ⟨⟨g₀, hresolve⟩, ?_⟩
  split at h
  · next hwaits =>
    cases h
    exact ⟨⟨hgrows.values, hgrows.positionals⟩, fun hflag => by simp [hflag] at hwaits⟩
  · exact ⟨hgrows.trans (grows_of_accept h).1, fun _ => (grows_of_accept h).2⟩

end Given

section Readers

variable {l : Scope} {g g₁ : Given} {o : Opt} {a : String} {c : Char} {letters : List Char}

theorem readLong_eq_ok {name : List Char} {value : Option String}
    (h : readLong l g name value = .ok g₁) :
    ∃ o, l.long? name = some o ∧ g.begin l o value = .ok g₁ := by
  unfold readLong at h
  split at h
  · cases h
  · next o ho =>
    split at h
    · cases h
    · exact ⟨o, ho, h⟩

/-- A letter begins its option; the letters behind it are its value or are read as well. -/
theorem readShort_cons_eq_ok (h : readShort l g (c :: letters) = .ok g₁) :
    ∃ o value g₀, l.short? c = some o ∧ g.begin l o value = .ok g₀ ∧
      if o.takesValue then g₁ = g₀ else readShort l g₀ letters = .ok g₁ := by
  rw [readShort] at h
  split at h
  · cases h
  · next o ho =>
    split at h
    · next htakes =>
      split at h <;> exact ⟨o, _, g₁, ho, h, by rw [if_pos htakes]⟩
    · next hflag =>
      obtain ⟨g₀, hbegin, hrest⟩ := exists_of_bind_eq_ok h
      exact ⟨o, none, g₀, ho, hbegin, by rw [if_neg hflag]; exact hrest⟩

theorem grows_of_readShort (h : readShort l g letters = .ok g₁) : g.Grows g₁ := by
  induction letters generalizing g with
  | nil =>
    cases h
    exact .refl _
  | cons c letters ih =>
    obtain ⟨o, value, g₀, -, hbegin, hrest⟩ := readShort_cons_eq_ok h
    have hgrows := (Given.begin_eq_ok hbegin).2.1
    split at hrest
    · exact hrest ▸ hgrows
    · exact hgrows.trans (ih hrest)

/-- Where no letter is followed by a value every letter gives its flag. -/
theorem has_of_readShort (hflags : ∀ p ∈ l.options, p.short?.isSome → p.takesValue = false)
    (h : readShort l g letters = .ok g₁) (hc : c ∈ letters) :
    ∃ o ∈ l.options, o.short? = some c ∧ g₁.has o = true := by
  induction letters generalizing g with
  | nil => cases hc
  | cons d letters ih =>
    obtain ⟨o, value, g₀, ho, hbegin, hrest⟩ := readShort_cons_eq_ok h
    have hmem : o ∈ l.options := List.mem_of_find?_eq_some ho
    have hletter : o.short? = some d := by simpa using List.find?_some ho
    have hflag := hflags o hmem (by simp [hletter])
    simp only [hflag, Bool.false_eq_true, if_false] at hrest
    rcases List.mem_cons.1 hc with rfl | hc
    · have hhas := (Given.begin_eq_ok hbegin).2.2 hflag
      exact ⟨o, hmem, hletter, (grows_of_readShort hrest).has hhas⟩
    · exact ih hrest hc

theorem readPositional_eq_ok (h : readPositional l g a = .ok g₁) :
    ∃ p ps g₀, g.positionals = p :: ps ∧ g.resolve l = .ok g₀ ∧
      g₁ = { g₀ with pending := some (p, some a), positionals := ps } := by
  unfold readPositional at h
  split at h
  · next p ps hps =>
    obtain ⟨g₀, hresolve, hrest⟩ := exists_of_bind_eq_ok h
    cases hrest
    exact ⟨p, ps, g₀, hps, hresolve, rfl⟩
  · split at h <;> cases h

end Readers

namespace Progress

variable {l : Scope} {g g₁ : Given} {a : String}

theorem grows (h : Progress l g a g₁) : g.Grows g₁ := by
  cases h with
  | escape | value => exact ⟨List.prefix_rfl, List.suffix_rfl⟩
  | long _ _ read =>
    obtain ⟨o, -, hbegin⟩ := readLong_eq_ok read
    exact (Given.begin_eq_ok hbegin).2.1
  | short _ _ read => exact grows_of_readShort read
  | positional read _ =>
    obtain ⟨p, ps, g₀, hps, hresolve, rfl⟩ := readPositional_eq_ok read
    exact ⟨(Given.grows_of_resolve hresolve).values, by simp [hps]⟩

/-- A value that is going to be refused is not looked at, or reading ends. -/
theorem refused (h : Progress l g a g₁) (hg : g.Refused) : g₁.Refused := by
  cases h with
  | escape => exact hg
  | long _ _ read =>
    obtain ⟨o, -, hbegin⟩ := readLong_eq_ok read
    obtain ⟨⟨g₀, hresolve⟩, -⟩ := Given.begin_eq_ok hbegin
    exact absurd hresolve hg.resolve_ne_ok
  | @short letters _ _ form read =>
    cases letters with
    | nil => exact absurd form (Form.of_ne_short_nil a.toList)
    | cons c letters =>
      obtain ⟨o, value, g₀, -, hbegin, -⟩ := readShort_cons_eq_ok read
      obtain ⟨⟨g₀, hresolve⟩, -⟩ := Given.begin_eq_ok hbegin
      exact absurd hresolve hg.resolve_ne_ok
  | value _ waiting _ => exact absurd (hg.waiting?.symm.trans waiting) (by simp)
  | positional read _ =>
    obtain ⟨p, ps, g₀, -, hresolve, -⟩ := readPositional_eq_ok read
    exact absurd hresolve hg.resolve_ne_ok

end Progress

/-! ## Flags that are named -/

/-- The argument names a flag: by its long name, or by its letter, perhaps among other letters. -/
def Opt.NamedBy (o : Opt) (a : String) : Prop :=
  a = "--" ++ o.long ∨
    ∃ letters c, a.toList = '-' :: letters ∧ letters.head? ≠ some '-' ∧ c ∈ letters ∧
      o.short? = some c

namespace Opt.NamedBy

variable {o : Opt} {a : String}

theorem head? (h : o.NamedBy a) : a.toList.head? = some '-' := by
  rcases h with rfl | ⟨letters, c, ha, -⟩
  · have hdash : "--".toList = ['-', '-'] := by decide
    rw [String.toList_append, hdash]
    rfl
  · rw [ha]
    rfl

theorem form (h : o.NamedBy a) (ho : o ≠ .shell) :
    Form.of a.toList = .long o.long.toList none ∨
      ∃ letters c, Form.of a.toList = .short letters ∧ c ∈ letters ∧ o.short? = some c := by
  rcases h with rfl | ⟨letters, c, ha, hdash, hc, hletter⟩
  · have hdash : "--".toList = ['-', '-'] := by decide
    rw [String.toList_append, hdash]
    exact .inl (Form.of_long (Opt.long_ne_nil ho) o.not_mem_long)
  · rw [ha]
    exact .inr ⟨letters, c, Form.of_short (List.ne_nil_of_mem hc) hdash, hc, hletter⟩

end Opt.NamedBy

theorem Opt.short?_injective {o p : Opt} {c : Char} (ho : o.short? = some c)
    (hp : p.short? = some c) : o = p := by
  have h : o.short? = p.short? ∧ o.short?.isSome := ⟨ho.trans hp.symm, by simp [ho]⟩
  revert h
  cases o <;> cases p <;> decide

section Naming

variable {l : Scope} {g g₁ g' : Given} {o : Opt} {a : String}

/-- An argument that names a flag gives it, or it takes the place of one without a name. -/
theorem Progress.has_of_namedBy (h : Progress l g a g₁) (ha : o.NamedBy a)
    (hflag : o.takesValue = false)
    (hflags : ∀ p ∈ l.options, p.short?.isSome → p.takesValue = false ∨ o.short? = none) :
    o ∈ l.options ∧ g₁.has o = true ∨ ∃ p ∈ g.positionals, g₁.pending = some (p, some a) := by
  have hshell : o ≠ .shell := by
    rintro rfl
    cases hflag
  have hform := ha.form hshell
  cases h with
  | escape _ form | value _ _ form =>
    rcases hform with hform | ⟨letters, c, hform, -⟩ <;> cases form.symm.trans hform
  | long _ form read =>
    rcases hform with hform | ⟨letters, c, hform, -⟩ <;> cases form.symm.trans hform
    obtain ⟨p, hp, hbegin⟩ := readLong_eq_ok read
    obtain ⟨hmem, hlong⟩ := Scope.long?_eq_some_iff.1 hp
    obtain rfl := Opt.long_injective (String.toList_inj.1 hlong)
    exact .inl ⟨hmem, (Given.begin_eq_ok hbegin).2.2 hflag⟩
  | short _ form read =>
    rcases hform with hform | ⟨letters, c, hform, hc, hletter⟩ <;> cases form.symm.trans hform
    obtain ⟨p, hmem, hp, hhas⟩ := has_of_readShort
      (fun p hp hsome => (hflags p hp hsome).resolve_right (by simp [hletter])) read hc
    obtain rfl := Opt.short?_injective hp hletter
    exact .inl ⟨hmem, hhas⟩
  | positional read _ =>
    obtain ⟨p, ps, g₀, hps, -, rfl⟩ := readPositional_eq_ok read
    exact .inr ⟨p, by simp [hps], rfl⟩

/-- What every step keeps is kept until the scope has been read. -/
theorem keeps_of_readArguments {P : Given → Prop} (hP : ∀ g a g₁, Progress l g a g₁ → P g → P g₁)
    {args : List String} {cmd : Option (CommandName × List String)}
    (h : readArguments l g args = .ok (g', cmd)) (hg : P g) : P g' := by
  induction args generalizing g with
  | nil =>
    cases h
    exact hg
  | cons b r ih =>
    rcases progress_of_readArguments h with ⟨c, -, rfl, -⟩ | ⟨g₁, hstep, hrest⟩
    · exact hg
    · exact ih hrest (hP g b g₁ hstep hg)

/-- **A flag that an argument names** is given when the scope has been read, unless the argument
stands behind a command, or was taken for a value that is going to be refused. -/
theorem has_of_readArguments {args : List String} {cmd : Option (CommandName × List String)}
    (h : readArguments l g args = .ok (g', cmd)) (hmem : a ∈ args) (ha : o.NamedBy a)
    (hflag : o.takesValue = false)
    (hflags : ∀ p ∈ l.options, p.short?.isSome → p.takesValue = false ∨ o.short? = none)
    (hvalues : ∀ p ∈ g.positionals, p.takesValue = true ∧ p.admits a = false) :
    o ∈ l.options ∧ g'.has o = true ∨ g'.Refused ∨ ∃ c r, cmd = some (c, r) ∧ a ∈ r := by
  induction args generalizing g with
  | nil => cases hmem
  | cons b r ih =>
    rcases progress_of_readArguments h with ⟨c, hword, rfl, rfl⟩ | ⟨g₁, hstep, hrest⟩
    · rcases List.mem_cons.1 hmem with rfl | hmem
      · rw [Scope.commandWord?_of_dash ha.head?] at hword
        cases hword
      · exact .inr (.inr ⟨c, r, rfl, hmem⟩)
    · rcases List.mem_cons.1 hmem with rfl | hmem
      · rcases hstep.has_of_namedBy ha hflag hflags with ⟨hopt, hhas⟩ | ⟨p, hp, hpending⟩
        · exact .inl ⟨hopt, keeps_of_readArguments (P := fun g => g.has o = true)
            (fun _ _ _ hstep => hstep.grows.has) hrest hhas⟩
        · exact .inr (.inl (keeps_of_readArguments (fun _ _ _ hstep => hstep.refused) hrest
            ⟨p, a, hpending, hvalues p hp⟩))
      · exact ih hrest hmem fun p hp => hvalues p (hstep.grows.positionals.subset hp)

/-- A scope that is accepted has no value that is refused and no two options that exclude each
other. -/
theorem Given.finish_eq_ok (h : g.finish l = .ok g₁) :
    ¬ g.Refused ∧ ∀ o p, excludes o = some p → ¬ (g.has o = true ∧ g.has p = true) := by
  obtain ⟨g₀, hresolve, -⟩ := exists_of_bind_eq_ok h
  refine ⟨fun hg => hg.resolve_ne_ok hresolve, fun o p hexcludes ⟨ho, hp⟩ => ?_⟩
  have hgrows := grows_of_resolve hresolve
  obtain ⟨_, _, -, hfinish⟩ :=
    finish_of_conflict hresolve hexcludes (hgrows.has ho) (hgrows.has hp)
  rw [hfinish] at h
  cases h

end Naming

/-! ## Answers without tests -/

section Refusal

variable {l : Scope} {g g' outer done : Given} {o : Opt} {a : String} {args : List String}
  {cmd : Option (CommandName × List String)}

/-- The arguments of a command name no other command. -/
theorem command_eq_none (hl : l ≠ none) (h : readArguments l g args = .ok (g', cmd)) :
    cmd = none := by
  induction args generalizing g with
  | nil =>
    cases h
    rfl
  | cons b r ih =>
    rcases progress_of_readArguments h with ⟨c, hword, -, -⟩ | ⟨g₁, -, hrest⟩
    · rw [Scope.commandWord?, if_pos hl] at hword
      cases hword
    · exact ih hrest

theorem Opt.NamedBy.not_admitted (h : o.NamedBy a) (ho : o ≠ .shell) :
    Opt.shell.admits a = false := by
  rw [← Bool.not_eq_true]
  intro hadmits
  rcases h.form ho with hform | ⟨letters, c, hform, -⟩ <;>
    · rw [Form.of_shell hadmits] at hform
      cases hform

/-- A flag that is none of the program's is named behind a command, or nothing is accepted. -/
theorem behind_of_namedBy (h : readArguments none (Given.start none) args = .ok (outer, cmd))
    (hdone : outer.finish none = .ok done) (hmem : a ∈ args) (ha : o.NamedBy a)
    (ho : o ∉ Scope.options none) (hflag : o.takesValue = false) :
    ∃ c r, cmd = some (c, r) ∧ a ∈ r := by
  have hflags : ∀ p ∈ Scope.options none, p.short?.isSome →
      p.takesValue = false ∨ o.short? = none := by
    intro p hp hshort
    left
    revert p
    decide
  rcases has_of_readArguments h hmem ha hflag hflags (by simp [Given.start]) with
    ⟨hopt, -⟩ | hrefused | hbehind
  · exact absurd hopt ho
  · exact absurd hrefused (Given.finish_eq_ok hdone).1
  · exact hbehind

/-- A flag that is named to a command is one of the command's, and it has been given. -/
theorem has_of_accepted {c : CommandName}
    (h : readArguments (some c) (Given.start (some c)) args = .ok (g, cmd))
    (hdone : g.finish (some c) = .ok done) (hmem : a ∈ args) (ha : o.NamedBy a)
    (hflag : o.takesValue = false)
    (hflags : ∀ p ∈ Scope.options (some c), p.short?.isSome →
      p.takesValue = false ∨ o.short? = none) :
    o ∈ Scope.options (some c) ∧ g.has o = true := by
  have hshell : o ≠ .shell := by
    rintro rfl
    cases hflag
  have hvalues : ∀ p ∈ (Given.start (some c)).positionals,
      p.takesValue = true ∧ p.admits a = false := by
    intro p hp
    have hp : p ∈ c.positionals := hp
    obtain rfl : p = .shell := by
      revert hp
      cases c <;> cases p <;> decide
    exact ⟨rfl, ha.not_admitted hshell⟩
  rcases has_of_readArguments h hmem ha hflag hflags hvalues with hhas | hrefused | ⟨c', r, hcmd, -⟩
  · exact hhas
  · exact absurd hrefused (Given.finish_eq_ok hdone).1
  · rw [command_eq_none (by simp) h] at hcmd
    cases hcmd

/-- Arguments are accepted only when both scopes are. -/
theorem scopes_of_ofWide {i : Invocation} (h : Invocation.ofWide args = .ok i) :
    ∃ outer cmd done, readArguments none (Given.start none) args = .ok (outer, cmd) ∧
      outer.finish none = .ok done ∧ ∀ c r, cmd = some (c, r) →
        ∃ inner cmd done, readArguments (some c) (Given.start (some c)) r = .ok (inner, cmd) ∧
          inner.finish (some c) = .ok done := by
  obtain ⟨⟨outer, cmd⟩, hread, h⟩ := exists_of_bind_eq_ok h
  cases cmd with
  | none =>
    obtain ⟨done, hdone, -⟩ := exists_of_bind_eq_ok h
    exact ⟨outer, none, done, hread, hdone, nofun⟩
  | some called =>
    obtain ⟨⟨inner, cmd⟩, hrest, h⟩ := exists_of_bind_eq_ok h
    obtain ⟨accepted, haccepted, h⟩ := exists_of_bind_eq_ok h
    obtain ⟨done, hdone, -⟩ := exists_of_bind_eq_ok h
    refine ⟨outer, some called, done, hread, hdone, ?_⟩
    rintro _ _ ⟨⟩
    exact ⟨inner, cmd, accepted, hrest, haccepted⟩

/-- **No arguments at all may ask for an answer and for no tests.** -/
theorem exists_stop_of_namedBy {b : String} (ha : a ∈ args) (hb : b ∈ args)
    (hyes : Opt.yes.NamedBy a) (hnoTests : Opt.noTests.NamedBy b) :
    ∃ stop, Invocation.ofWide args = .error stop := by
  cases hresult : Invocation.ofWide args with
  | error stop => exact ⟨stop, rfl⟩
  | ok i =>
    exfalso
    obtain ⟨outer, cmd, done, houter, hdone, hinner⟩ := scopes_of_ofWide hresult
    obtain ⟨c, r, rfl, hbehind⟩ := behind_of_namedBy houter hdone hb hnoTests (by decide) rfl
    obtain ⟨c', r', hcmd, hahead⟩ := behind_of_namedBy houter hdone ha hyes (by decide) rfl
    cases hcmd
    obtain ⟨inner, cmd, accepted, hread, haccepted⟩ := hinner c r rfl
    obtain ⟨hopt, hhas⟩ := has_of_accepted hread haccepted hbehind hnoTests rfl
      fun _ _ _ => .inr rfl
    -- only a run takes the flag, and none of the letters of a run is followed by a value
    obtain rfl : c = .run := by
      revert hopt
      cases c <;> decide
    obtain ⟨-, hhas'⟩ := has_of_accepted hread haccepted hahead hyes rfl (by decide)
    exact (Given.finish_eq_ok haccepted).2 .yes .noTests rfl ⟨hhas', hhas⟩

end Refusal

end CommitGate.Cli

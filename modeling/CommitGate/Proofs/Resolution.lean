import CommitGate.Host
import CommitGate.Proofs.Path

/-!
# Resolving joined paths

A path that goes on below a directory resolves to that directory first and then takes the names that
remain. Links on the way to the directory count, and each name below it is looked up where it
stands.

Results:

* `get?_append`: looking up two lists of names is looking up one after the other.
* `entry_of_ownEntry`, `ownEntry_of_entry`, `entry_of_ownEntry_error`: following a link at the end
  matters for links alone.
* `locate_revise`, `entry_revise`: a change to a file changes no way.
* `ownEntry_below_iff`: what a path below a directory leads to, through directories alone, is what
  its tree holds at these names.
-/

namespace CommitGate

open Text (Octets)

namespace Tree

theorem get?_cons (t : Tree) (n : RawText) (names : List RawText) :
    t.get? (n :: names) =
      match t.find? n with
      | some (.dir u) => u.get? names
      | e => if names = [] then e else none := by
  cases names with
  | nil =>
    rw [get?]
    split <;> simp_all [get?]
  | cons m names =>
    rw [get?.eq_3 t n (m :: names) (by simp)]
    split <;> simp_all

theorem get?_append (t : Tree) (names rest : List RawText) :
    t.get? (names ++ rest) =
      match t.get? names with
      | some (.dir u) => u.get? rest
      | e => if rest = [] then e else none := by
  induction names generalizing t with
  | nil => simp [get?]
  | cons n names ih =>
    rw [List.cons_append, get?_cons, get?_cons]
    cases h : t.find? n with
    | none => by_cases hn : names = [] <;> simp [hn]
    | some e =>
      cases e with
      | dir u => exact ih u
      | file c m => by_cases hn : names = [] <;> simp [hn]
      | link g => by_cases hn : names = [] <;> simp [hn]

theorem get?_append_of_dir {t u : Tree} {names : List RawText} (h : t.get? names = some (.dir u))
    (rest : List RawText) : t.get? (names ++ rest) = u.get? rest := by
  rw [get?_append, h]

/-- What stands below a place stands in a directory. -/
theorem exists_dir_of_get?_append {t : Tree} {names rest : List RawText} {e : Entry}
    (h : t.get? (names ++ rest) = some e) (hr : rest ≠ []) : ∃ u, t.get? names = some (.dir u) := by
  rw [get?_append] at h
  split at h
  · exact ⟨_, ‹_›⟩
  · simp [hr] at h

theorem get?_revise (node : Nat) (content : Octets → Octets) (mode : Nat → Nat) (t : Tree)
    (names : List RawText) :
    (t.revise node content mode).get? names =
      (t.get? names).map (Entry.revise node content mode) := by
  induction names generalizing t with
  | nil => rfl
  | cons n names ih =>
    rw [get?_cons, get?_cons, find?_revise]
    rcases t.find? n with _ | (⟨k, c, m⟩ | ⟨k, g⟩ | u)
    · by_cases hn : names = [] <;> simp [hn]
    · by_cases hn : names = [] <;> by_cases hk : k = node <;> simp [hn, hk, Entry.revise]
    · by_cases hn : names = [] <;> simp [hn, Entry.revise]
    · exact ih u

end Tree

namespace Host

/-! ## One step -/

/-- Where the steps go on after a link, when so many more may be followed. -/
def onward (t : Tree) (last : Bool) :
    Nat → List RawText → Octets → List Step → Except Fault (List RawText)
  | 0, _, _, _ => .error .tooManyLinks
  | links + 1, here, target, r =>
    if target = [] then .error .notFound
    else resolveFrom t last links (origin here target) (steps target ++ r)

theorem resolveFrom_eq (t : Tree) (last : Bool) (links : Nat) (place : List RawText)
    (ss : List Step) :
    resolveFrom t last links place ss = advance t last (onward t last links) place ss := by
  cases links <;> rfl

section Step

variable (t : Tree) (last : Bool) (links : Nat) (place : List RawText) (ss : List Step)

@[simp] theorem resolveFrom_nil : resolveFrom t last links place [] = .ok place := by
  rw [resolveFrom_eq, advance]

@[simp] theorem resolveFrom_stay :
    resolveFrom t last links place (.stay :: ss) = resolveFrom t last links place ss := by
  rw [resolveFrom_eq, resolveFrom_eq, advance]

@[simp] theorem resolveFrom_slash :
    resolveFrom t last links place (.slash :: ss) = resolveFrom t last links place ss := by
  rw [resolveFrom_eq, resolveFrom_eq, advance]

@[simp] theorem resolveFrom_up :
    resolveFrom t last links place (.up :: ss) = resolveFrom t last links place.dropLast ss := by
  rw [resolveFrom_eq, resolveFrom_eq, advance]

theorem resolveFrom_name (n : RawText) :
    resolveFrom t last links place (.name n :: ss) =
      match t.get? (place ++ [n]) with
      | some (.dir _) => resolveFrom t last links (place ++ [n]) ss
      | some (.file _ _ _) => if ss = [] then .ok (place ++ [n]) else .error .notDirectory
      | some (.link _ target) =>
        if ss = [] ∧ last = false then .ok (place ++ [n])
        else onward t last links place target.octets ss
      | none => if ss = [] ∨ ss = [.slash] then .ok (place ++ [n]) else .error .notFound := by
  rw [resolveFrom_eq, advance]
  rcases t.get? (place ++ [n]) with _ | (⟨k, c, m⟩ | ⟨k, g⟩ | u)
  · simp only
  · simp only
  · simp only
  · simp only [resolveFrom_eq]

end Step

/-! ## Resolution as a relation -/

/-- The steps lead from one place to another while at most so many links are followed. -/
inductive Leads (t : Tree) (last : Bool) : Nat → List RawText → List Step → List RawText → Prop
  | done {links place} : Leads t last links place [] place
  | stay {links place ss d} : Leads t last links place ss d →
      Leads t last links place (.stay :: ss) d
  | slash {links place ss d} : Leads t last links place ss d →
      Leads t last links place (.slash :: ss) d
  | up {links place ss d} : Leads t last links place.dropLast ss d →
      Leads t last links place (.up :: ss) d
  | dir {links place n u ss d} : t.get? (place ++ [n]) = some (.dir u) →
      Leads t last links (place ++ [n]) ss d →
      Leads t last links place (.name n :: ss) d
  | file {links place n k c m} : t.get? (place ++ [n]) = some (.file k c m) →
      Leads t last links place [.name n] (place ++ [n])
  /-- A link at the end that is not followed. -/
  | here {links place n k g} : t.get? (place ++ [n]) = some (.link k g) → last = false →
      Leads t last links place [.name n] (place ++ [n])
  | link {links place n k g ss d} : t.get? (place ++ [n]) = some (.link k g) →
      ¬(ss = [] ∧ last = false) → g.octets ≠ [] →
      Leads t last links (origin place g.octets) (steps g.octets ++ ss) d →
      Leads t last (links + 1) place (.name n :: ss) d
  /-- A name at the end that stands for nothing yet. -/
  | missing {links place n ss} : t.get? (place ++ [n]) = none → ss = [] ∨ ss = [.slash] →
      Leads t last links place (.name n :: ss) (place ++ [n])

variable {t : Tree} {last : Bool} {links : Nat} {place : List RawText} {ss : List Step}

theorem Leads.resolveFrom_eq_ok {d : List RawText} (h : Leads t last links place ss d) :
    resolveFrom t last links place ss = .ok d := by
  induction h with
  | done => simp
  | stay _ ih => simpa using ih
  | slash _ ih => simpa using ih
  | up _ ih => simpa using ih
  | dir hn _ ih => simpa [resolveFrom_name, hn] using ih
  | file hn => simp [resolveFrom_name, hn]
  | here hn hl => simp [resolveFrom_name, hn, hl]
  | link hn hl hg _ ih =>
    rw [resolveFrom_name, hn]
    simp only
    rw [if_neg hl, onward, if_neg hg, ih]
  | missing hn hs => simp [resolveFrom_name, hn, hs]

theorem Leads.of_resolveFrom {d : List RawText} (h : resolveFrom t last links place ss = .ok d) :
    Leads t last links place ss d := by
  induction links using Nat.strongRecOn generalizing place ss with
  | ind links ihl =>
  induction ss generalizing place with
  | nil =>
    rw [resolveFrom_nil] at h
    cases h
    exact .done
  | cons s ss ih =>
    cases s with
    | stay => exact .stay (ih (by simpa using h))
    | slash => exact .slash (ih (by simpa using h))
    | up => exact .up (ih (by simpa using h))
    | name n =>
      rw [resolveFrom_name] at h
      cases hn : t.get? (place ++ [n]) with
      | none =>
        rw [hn] at h
        simp only at h
        split at h
        · next hs => cases h; exact .missing hn hs
        · cases h
      | some e =>
        rw [hn] at h
        cases e with
        | dir u => exact .dir hn (ih h)
        | file c m =>
          simp only at h
          split at h
          · next hs => cases h; subst hs; exact .file hn
          · cases h
        | link g =>
          simp only at h
          split at h
          · next hs => cases h; obtain ⟨rfl, hl⟩ := hs; exact .here hn hl
          · next hs =>
            cases links with
            | zero => cases h
            | succ links =>
              rw [onward] at h
              split at h
              · cases h
              · next hg => exact .link hn hs hg (ihl links (Nat.lt_succ_self _) h)

theorem leads_iff {d : List RawText} :
    Leads t last links place ss d ↔ resolveFrom t last links place ss = .ok d :=
  ⟨Leads.resolveFrom_eq_ok, Leads.of_resolveFrom⟩

/-! ## A link at the end -/

/-- When the place found holds no link, it does not matter whether a link at the end is followed. -/
theorem Leads.follow {d : List RawText} (h : Leads t false links place ss d)
    (hd : ∀ k g, t.get? d ≠ some (.link k g)) :
    Leads t true links place ss d := by
  induction h with
  | done => exact .done
  | stay _ ih => exact .stay (ih hd)
  | slash _ ih => exact .slash (ih hd)
  | up _ ih => exact .up (ih hd)
  | dir hn _ ih => exact .dir hn (ih hd)
  | file hn => exact .file hn
  | here hn => exact absurd hn (hd _ _)
  | link hn _ hg _ ih => exact .link hn (by simp) hg (ih hd)
  | missing hn hs => exact .missing hn hs

/-- Where following a link at the end leads somewhere, not following it leads there too or to that
link. -/
theorem Leads.unfollow {d : List RawText} (h : Leads t true links place ss d) :
    ∃ d', Leads t false links place ss d' ∧ (d' = d ∨ ∃ k g, t.get? d' = some (.link k g)) := by
  induction h with
  | done => exact ⟨_, .done, Or.inl rfl⟩
  | stay _ ih => obtain ⟨d', hd', he⟩ := ih; exact ⟨d', .stay hd', he⟩
  | slash _ ih => obtain ⟨d', hd', he⟩ := ih; exact ⟨d', .slash hd', he⟩
  | up _ ih => obtain ⟨d', hd', he⟩ := ih; exact ⟨d', .up hd', he⟩
  | dir hn _ ih => obtain ⟨d', hd', he⟩ := ih; exact ⟨d', .dir hn hd', he⟩
  | file hn => exact ⟨_, .file hn, Or.inl rfl⟩
  | here _ hl => cases hl
  | @link _ _ _ _ _ ss _ hn _ hg _ ih =>
    by_cases hs : ss = []
    · subst hs
      exact ⟨_, .here hn rfl, Or.inr ⟨_, _, hn⟩⟩
    · obtain ⟨d', hd', he⟩ := ih
      exact ⟨d', .link hn (by simp [hs]) hg hd', he⟩
  | missing hn hs => exact ⟨_, .missing hn hs, Or.inl rfl⟩

/-- Where not following a link at the end fails, following it fails in the same way: the steps
before the end are the same. -/
theorem resolveFrom_follow_error {f : Fault} (h : resolveFrom t false links place ss = .error f) :
    resolveFrom t true links place ss = .error f := by
  induction links using Nat.strongRecOn generalizing place ss with
  | ind links ihl =>
  induction ss generalizing place with
  | nil =>
    rw [resolveFrom_nil] at h
    cases h
  | cons s ss ih =>
    cases s with
    | stay | slash | up =>
      simp only [resolveFrom_stay, resolveFrom_slash, resolveFrom_up] at h ⊢
      exact ih h
    | name n =>
      rw [resolveFrom_name] at h ⊢
      cases hn : t.get? (place ++ [n]) with
      | none => rwa [hn] at h
      | some e =>
        rw [hn] at h
        cases e with
        | dir u => exact ih h
        | file c m => exact h
        | link g =>
          simp only at h ⊢
          split at h
          · cases h
          · rw [if_neg (by simp)]
            cases links with
            | zero => exact h
            | succ links =>
              rw [onward] at h ⊢
              split at h
              · next hg => rwa [if_pos hg]
              · next hg =>
                rw [if_neg hg]
                exact ihl links (Nat.lt_succ_self _) h

/-! ## Going on below a directory -/

/-- Steps that lead on from a directory, whatever number of links may be followed there, lead on
from the steps that lead to it. A slash at the end of these is left out. -/
theorem Leads.append {ms tail rest : List Step} {d d' : List RawText} {u : Tree}
    (h : Leads t true links place (ms ++ tail) d) (htail : tail = [] ∨ tail = [.slash])
    (hd : t.get? d = some (.dir u)) (hrest : rest ≠ []) (hgo : ∀ k, Leads t last k d rest d') :
    Leads t last links place (ms ++ rest) d' := by
  generalize hss : ms ++ tail = ss at h
  induction h generalizing ms with
  | done =>
    obtain ⟨rfl, -⟩ := List.append_eq_nil_iff.1 hss
    exact hgo _
  | stay h ih =>
    cases ms with
    | nil => rcases htail with rfl | rfl <;> simp at hss
    | cons m ms => cases hss; exact .stay (ih hd hgo rfl)
  | slash h ih =>
    cases ms with
    | nil =>
      -- the slash is the one at the end
      obtain rfl : tail = [.slash] := by rcases htail with rfl | rfl <;> simp_all
      cases hss
      cases h
      exact hgo _
    | cons m ms => cases hss; exact .slash (ih hd hgo rfl)
  | up h ih =>
    cases ms with
    | nil => rcases htail with rfl | rfl <;> simp at hss
    | cons m ms => cases hss; exact .up (ih hd hgo rfl)
  | dir hn h ih =>
    cases ms with
    | nil => rcases htail with rfl | rfl <;> simp at hss
    | cons m ms => cases hss; exact .dir hn (ih hd hgo rfl)
  | file hn => simp [hn] at hd
  | here _ hl => cases hl
  | link hn hl hg h ih =>
    cases ms with
    | nil => rcases htail with rfl | rfl <;> simp at hss
    | cons m ms =>
      rw [List.cons_append, List.cons.injEq] at hss
      obtain ⟨rfl, rfl⟩ := hss
      rw [List.cons_append]
      refine .link hn (by simp [hrest]) hg ?_
      rw [← List.append_assoc]
      exact ih hd hgo (List.append_assoc ..)
  | missing hn _ => simp [hn] at hd

/-- A path that goes on below something leads to an entry only if that is a directory. -/
theorem Leads.of_append {ms rest : List Step} {n : RawText} {d : List RawText}
    (h : Leads t last links place (ms ++ .name n :: rest) d) (hd : t.get? d ≠ none) :
    ∃ p u, Leads t true links place ms p ∧ t.get? p = some (.dir u) := by
  -- with no steps left in front, the name is looked up in the place at hand
  have hhere : ∀ {links : Nat} {place : List RawText} {m : RawText} {e : Entry},
      t.get? (place ++ [m]) = some e →
      ∃ p u, Leads t true links place [] p ∧ t.get? p = some (.dir u) := by
    intro links place m e he
    obtain ⟨u, hu⟩ := Tree.exists_dir_of_get?_append he (by simp)
    exact ⟨place, u, .done, hu⟩
  generalize hss : ms ++ .name n :: rest = ss at h
  induction h generalizing ms with
  | done => simp at hss
  | stay _ ih =>
    cases ms with
    | nil => cases hss
    | cons m ms => cases hss; obtain ⟨p, u, hp, hu⟩ := ih hd rfl; exact ⟨p, u, .stay hp, hu⟩
  | slash _ ih =>
    cases ms with
    | nil => cases hss
    | cons m ms => cases hss; obtain ⟨p, u, hp, hu⟩ := ih hd rfl; exact ⟨p, u, .slash hp, hu⟩
  | up _ ih =>
    cases ms with
    | nil => cases hss
    | cons m ms => cases hss; obtain ⟨p, u, hp, hu⟩ := ih hd rfl; exact ⟨p, u, .up hp, hu⟩
  | dir hn _ ih =>
    cases ms with
    | nil => cases hss; exact hhere hn
    | cons m ms => cases hss; obtain ⟨p, u, hp, hu⟩ := ih hd rfl; exact ⟨p, u, .dir hn hp, hu⟩
  | file hn =>
    cases ms with
    | nil => cases hss; exact hhere hn
    | cons m ms => simp at hss
  | here hn _ =>
    cases ms with
    | nil => cases hss; exact hhere hn
    | cons m ms => simp at hss
  | link hn _ hg _ ih =>
    cases ms with
    | nil => cases hss; exact hhere hn
    | cons m ms =>
      cases hss
      obtain ⟨p, u, hp, hu⟩ := ih hd (List.append_assoc ..)
      exact ⟨p, u, .link hn (by simp) hg hp, hu⟩
  | missing hn _ => exact absurd hn hd

/-- A slash after steps that lead to a place changes nothing there when it is a directory. -/
theorem Leads.append_slash {ms : List Step} {d : List RawText} {u : Tree}
    (h : Leads t true links place ms d)
    (hd : t.get? d = some (.dir u)) : Leads t true links place (ms ++ [.slash]) d := by
  have h' : Leads t true links place (ms ++ []) d := by rwa [List.append_nil]
  exact h'.append (Or.inl rfl) hd (by simp) fun _ => .slash .done

/-- Names that go through directories alone lead to where they stand. -/
theorem leads_names {d names : List RawText} {u : Tree} (hd : t.get? d = some (.dir u))
    (hne : names ≠ [])
    (hdirs : ∀ k, 0 < k → k < names.length → ∃ v, u.get? (names.take k) = some (.dir v)) (k : Nat) :
    Leads t false k d (names.map .name) (d ++ names) := by
  induction names generalizing d u with
  | nil => exact absurd rfl hne
  | cons n names ih =>
    have hn : t.get? (d ++ [n]) = u.get? [n] := Tree.get?_append_of_dir hd [n]
    cases names with
    | nil =>
      cases he : u.get? [n] with
      | none => exact .missing (hn.trans he) (Or.inl rfl)
      | some e =>
        cases e with
        | file c m => exact .file (hn.trans he)
        | link g => exact .here (hn.trans he) rfl
        | dir v => exact .dir (hn.trans he) .done
    | cons m names =>
      obtain ⟨v, hv⟩ := hdirs 1 (by simp) (by simp)
      have hdirs' : ∀ k, 0 < k → k < (m :: names).length →
          ∃ w, v.get? ((m :: names).take k) = some (.dir w) := by
        intro k _ hk
        obtain ⟨w, hw⟩ := hdirs (k + 1) (by omega) (by simpa using hk)
        refine ⟨w, ?_⟩
        rw [← hw, ← Tree.get?_append_of_dir hv]
        rfl
      have := ih (hn.trans hv) (by simp) hdirs'
      rw [List.append_assoc] at this
      exact .dir (hn.trans hv) this

/-! ## Paths -/

/-- The steps of a spelling, a slash at the end apart. -/
def moves (s : Octets) : List Step :=
  (Path.slashPieces s).filterMap step?

theorem steps_eq (s : Octets) :
    steps s = moves s ++ if s.getLast? = some Path.slash then [.slash] else [] := rfl

/-- Only an empty piece asks for no step. -/
theorem eq_nil_of_step?_eq_none {b : Octets} (hstep : step? b = none) : b = [] := by
  unfold step? at hstep
  split at hstep
  · assumption
  · split at hstep
    · cases hstep
    · split at hstep <;> cases hstep

theorem step?_name {n : RawText} (hn : IsName n) : step? n.octets = some (.name n) := by
  rw [step?, if_neg hn.1, if_neg hn.2.1, if_neg hn.2.2.1]

theorem moves_child (p : Path) {n : RawText} (hn : IsName n) :
    moves (p.child n).spelling.octets = moves p.spelling.octets ++ [.name n] := by
  rw [moves, Path.filterMap_slashPieces_child rfl p hn, step?_name hn]
  rfl

theorem moves_below (p : Path) {names : List RawText} (hn : ∀ n ∈ names, IsName n) :
    moves (p.below names).spelling.octets = moves p.spelling.octets ++ names.map .name := by
  induction names generalizing p with
  | nil => simp [Path.below_nil]
  | cons n names ih =>
    rw [Path.below_cons, ih (p.child n) fun m hm => hn m (List.mem_cons_of_mem n hm),
      moves_child p (hn n List.mem_cons_self)]
    simp

/-- A path whose spelling goes on behind another's: it starts like that, holds a NUL only where that
does, and ends in a name. -/
structure GoesOn (p q : Path) : Prop where
  nonempty : q.spelling.octets ≠ []
  nul : 0 ∈ q.spelling.octets ↔ 0 ∈ p.spelling.octets
  head : q.spelling.octets.head? = p.spelling.octets.head?
  last : q.spelling.octets.getLast? ≠ some Path.slash

theorem getLast?_slash_name {n : RawText} (hn : IsName n) (q : Octets) :
    (q ++ Path.slash :: n.octets).getLast? ≠ some Path.slash := by
  obtain ⟨l, c, hc⟩ := List.eq_nil_or_concat n.octets |>.resolve_left hn.1
  have hcn : c ≠ Path.slash := by
    rintro rfl
    exact hn.2.2.2.1 (by simp [hc])
  rw [hc, List.concat_eq_append, ← List.cons_append, ← List.append_assoc, List.getLast?_concat]
  simpa using hcn

theorem goesOn_child {p : Path} (hp : p.spelling.octets ≠ []) {n : RawText} (hn : IsName n) :
    GoesOn p (p.child n) := by
  rcases Path.spelling_child p hn with ⟨h, -⟩ | ⟨-, q, hc, h | h⟩
  · exact absurd h hp
  · refine ⟨?_, ?_, ?_, ?_⟩ <;> rw [hc]
    · simp
    · simp [h, hn.2.2.2.2, show (0 : UInt8) ≠ Path.slash by decide]
    · rw [h]
      exact List.head?_append_of_ne_nil _ (h ▸ hp)
    · exact getLast?_slash_name hn q
  · refine ⟨?_, ?_, ?_, ?_⟩ <;> rw [hc]
    · simp
    · simp [h, hn.2.2.2.2, show (0 : UInt8) ≠ Path.slash by decide]
    · rw [h]
      cases q <;> rfl
    · exact getLast?_slash_name hn q

theorem goesOn_below {p : Path} (hp : p.spelling.octets ≠ []) {names : List RawText}
    (hn : ∀ n ∈ names, IsName n) (hne : names ≠ []) : GoesOn p (p.below names) := by
  induction names generalizing p with
  | nil => exact absurd rfl hne
  | cons n names ih =>
    obtain ⟨hnn, hrest⟩ := List.forall_mem_cons.1 hn
    have hchild := goesOn_child hp hnn
    cases names with
    | nil => exact hchild
    | cons m names =>
      have hbelow := ih hchild.nonempty hrest (by simp)
      exact ⟨hbelow.nonempty, hbelow.nul.trans hchild.nul, hbelow.head.trans hchild.head,
        hbelow.last⟩

variable {h : Host} {p : Path}

theorem locate_eq_ok_iff {last : Bool} {d : List RawText} :
    h.locate last p = .ok d ↔
      p.spelling.octets ≠ [] ∧ 0 ∉ p.spelling.octets ∧
        Leads h.tree last 40 (origin h.directory p.spelling.octets)
          (steps p.spelling.octets) d := by
  rw [locate, leads_iff]
  by_cases h1 : p.spelling.octets = []
  · simp [h1]
  · by_cases h2 : 0 ∈ p.spelling.octets <;> simp [h1, h2]

theorem entry_eq_ok_iff {e : Entry} :
    h.entry p = .ok e ↔ ∃ d, h.locate true p = .ok d ∧ h.tree.get? d = some e := by
  rw [entry]
  cases hl : h.locate true p with
  | error f => simp [bind, Except.bind]
  | ok d => cases hg : h.tree.get? d <;> simp [bind, Except.bind, hg]

theorem ownEntry_eq_ok_iff {e : Entry} :
    h.ownEntry p = .ok e ↔ ∃ d, h.locate false p = .ok d ∧ h.tree.get? d = some e := by
  rw [ownEntry]
  cases hl : h.locate false p with
  | error f => simp [bind, Except.bind]
  | ok d => cases hg : h.tree.get? d <;> simp [bind, Except.bind, hg]

/-- What stands at a path itself, and is no link, is what the path leads to. -/
theorem entry_of_ownEntry {e : Entry} (he : h.ownEntry p = .ok e) (hg : ∀ k g, e ≠ .link k g) :
    h.entry p = .ok e := by
  obtain ⟨d, hl, hd⟩ := ownEntry_eq_ok_iff.1 he
  obtain ⟨h1, h2, h3⟩ := locate_eq_ok_iff.1 hl
  refine entry_eq_ok_iff.2 ⟨d, locate_eq_ok_iff.2 ⟨h1, h2, h3.follow fun k g hdg => hg k g ?_⟩, hd⟩
  exact Option.some.inj (hd.symm.trans hdg)

/-- At a path that leads to something stands that itself, or a link. -/
theorem ownEntry_of_entry {e : Entry} (he : h.entry p = .ok e) :
    h.ownEntry p = .ok e ∨ ∃ k g, h.ownEntry p = .ok (.link k g) := by
  obtain ⟨d, hl, hd⟩ := entry_eq_ok_iff.1 he
  obtain ⟨h1, h2, h3⟩ := locate_eq_ok_iff.1 hl
  obtain ⟨d', h3', rfl | ⟨k, g, hg⟩⟩ := h3.unfollow
  · exact Or.inl (ownEntry_eq_ok_iff.2 ⟨d', locate_eq_ok_iff.2 ⟨h1, h2, h3'⟩, hd⟩)
  · exact Or.inr ⟨k, g, ownEntry_eq_ok_iff.2 ⟨d', locate_eq_ok_iff.2 ⟨h1, h2, h3'⟩, hg⟩⟩

theorem locate_follow_error {f : Fault} (hl : h.locate false p = .error f) :
    h.locate true p = .error f := by
  simp only [locate] at hl ⊢
  by_cases h1 : p.spelling.octets = []
  · rwa [if_pos h1] at hl ⊢
  rw [if_neg h1] at hl ⊢
  by_cases h2 : p.spelling.octets.contains 0 = true
  · rwa [if_pos h2] at hl ⊢
  rw [if_neg h2] at hl ⊢
  exact resolveFrom_follow_error hl

/-- A path at which nothing stands leads nowhere, for the same reason. -/
theorem entry_of_ownEntry_error {f : Fault} (he : h.ownEntry p = .error f) :
    h.entry p = .error f := by
  rw [ownEntry] at he
  cases hl : h.locate false p with
  | error g =>
    rw [hl] at he
    rw [entry, locate_follow_error hl]
    exact he
  | ok d =>
    obtain ⟨h1, h2, h3⟩ := locate_eq_ok_iff.1 hl
    rw [hl] at he
    cases hd : h.tree.get? d with
    | some e => simp [bind, Except.bind, hd] at he
    | none =>
      have hfollow : h.locate true p = .ok d :=
        locate_eq_ok_iff.2 ⟨h1, h2, h3.follow fun _ _ hg => by rw [hd] at hg; cases hg⟩
      rw [entry, hfollow]
      exact he

theorem pathExists_iff : h.pathExists p = true ↔ ∃ e, h.entry p = .ok e := by
  rw [pathExists]
  cases h.entry p <;> simp [Except.toOption]

/-! ## Changed files -/

section Revise

variable {node : Nat} {content : Octets → Octets} {mode : Nat → Nat}

/-- The steps lead where they led, whatever a file holds. -/
theorem advance_revise {last : Bool}
    {follow : List RawText → Octets → List Step → Except Fault (List RawText)} (t : Tree)
    (place : List RawText) (ss : List Step) :
    advance (t.revise node content mode) last follow place ss =
      advance t last follow place ss := by
  induction ss generalizing place with
  | nil => rfl
  | cons s ss ih =>
    cases s with
    | stay => exact ih place
    | slash => exact ih place
    | up => exact ih place.dropLast
    | name n =>
      rw [advance, advance, Tree.get?_revise]
      rcases t.get? (place ++ [n]) with _ | (⟨k, c, m⟩ | ⟨k, g⟩ | u)
      · rfl
      · by_cases hk : k = node <;> simp [Entry.revise, hk]
      · rfl
      · exact ih (place ++ [n])

theorem resolveFrom_revise {last : Bool} (t : Tree) (links : Nat) (place : List RawText)
    (ss : List Step) :
    resolveFrom (t.revise node content mode) last links place ss =
      resolveFrom t last links place ss := by
  induction links generalizing place ss with
  | zero => rw [resolveFrom, resolveFrom, advance_revise]
  | succ links ih => rw [resolveFrom, resolveFrom, advance_revise]; simp only [ih]

theorem locate_revise (last : Bool) :
    (h.revise node content mode).locate last p = h.locate last p := by
  simp only [locate, revise, resolveFrom_revise]

/-- A path leads to the changed file where it led to the file, and elsewhere to what it did. -/
theorem entry_revise :
    (h.revise node content mode).entry p = (h.entry p).map (Entry.revise node content mode) := by
  rw [entry, entry, locate_revise]
  cases h.locate true p with
  | error f => rfl
  | ok d =>
    show Option.elim ((h.tree.revise node content mode).get? d) _ _ = _
    rw [Tree.get?_revise]
    cases hd : h.tree.get? d <;> simp [bind, Except.bind, Except.map, hd]

end Revise

/-! ## Paths below a directory -/

variable {names : List RawText}

theorem steps_below (hp : p.spelling.octets ≠ []) (hn : ∀ n ∈ names, IsName n) (hne : names ≠ []) :
    steps (p.below names).spelling.octets = moves p.spelling.octets ++ names.map .name := by
  rw [steps_eq, if_neg (goesOn_below hp hn hne).last, List.append_nil, moves_below p hn]

theorem origin_below (hp : p.spelling.octets ≠ []) (hn : ∀ n ∈ names, IsName n) (hne : names ≠ [])
    (place : List RawText) :
    origin place (p.below names).spelling.octets = origin place p.spelling.octets := by
  rw [origin, origin, (goesOn_below hp hn hne).head]

/-- What stands at a path below a directory that goes through directories alone. -/
theorem ownEntry_below {u : Tree} (hroot : h.entry p = .ok (.dir u)) (hn : ∀ n ∈ names, IsName n)
    (hne : names ≠ [])
    (hdirs : ∀ k, 0 < k → k < names.length → ∃ v, u.get? (names.take k) = some (.dir v))
    (e : Entry) :
    h.ownEntry (p.below names) = .ok e ↔ u.get? names = some e := by
  obtain ⟨d, hl, hd⟩ := entry_eq_ok_iff.1 hroot
  obtain ⟨h1, h2, h3⟩ := locate_eq_ok_iff.1 hl
  have hlead : Leads h.tree false 40 (origin h.directory (p.below names).spelling.octets)
      (steps (p.below names).spelling.octets) (d ++ names) := by
    rw [origin_below h1 hn hne, steps_below h1 hn hne]
    rw [steps_eq] at h3
    exact h3.append (by split <;> simp) hd (by simpa using hne) (leads_names hd hne hdirs)
  have hbelow := goesOn_below h1 hn hne
  have hlocate : h.locate false (p.below names) = .ok (d ++ names) :=
    locate_eq_ok_iff.2 ⟨hbelow.nonempty, fun hc => h2 (hbelow.nul.1 hc), hlead⟩
  rw [ownEntry_eq_ok_iff, hlocate, ← Tree.get?_append_of_dir hd]
  simp

/-- Something stands below a path only if the path leads to a directory. -/
theorem exists_dir_of_ownEntry_below {e : Entry} (hp : p.spelling.octets ≠ [])
    (hn : ∀ n ∈ names, IsName n) (hne : names ≠ []) (he : h.ownEntry (p.below names) = .ok e) :
    ∃ u, h.entry p = .ok (.dir u) := by
  obtain ⟨d, hl, hd⟩ := ownEntry_eq_ok_iff.1 he
  obtain ⟨-, h2, h3⟩ := locate_eq_ok_iff.1 hl
  have h2' : 0 ∉ p.spelling.octets := fun hc => h2 ((goesOn_below hp hn hne).nul.2 hc)
  rw [origin_below hp hn hne, steps_below hp hn hne] at h3
  obtain ⟨n, rest, rfl⟩ := List.exists_cons_of_ne_nil hne
  obtain ⟨q, u, hq, hu⟩ := h3.of_append (by simp [hd])
  refine ⟨u, entry_eq_ok_iff.2 ⟨q, locate_eq_ok_iff.2 ⟨hp, h2', ?_⟩, hu⟩⟩
  rw [steps_eq]
  split
  · exact hq.append_slash hu
  · simpa using hq

/-- What stands at a path on the way, when everything before it is a directory. -/
theorem ownEntry_take {u : Tree} (hroot : h.entry p = .ok (.dir u)) (hn : ∀ n ∈ names, IsName n)
    {k : Nat} (hk : 0 < k) (hk' : k < names.length)
    (hdirs : ∀ j, 0 < j → j < k → ∃ v, u.get? (names.take j) = some (.dir v)) (e : Entry) :
    h.ownEntry (p.below (names.take k)) = .ok e ↔ u.get? (names.take k) = some e := by
  have hne : names.take k ≠ [] := by
    intro hnil
    rw [← List.length_eq_zero_iff, List.length_take] at hnil
    omega
  refine ownEntry_below hroot (fun n hm => hn n (List.mem_of_mem_take hm)) hne (fun j hj hj' => ?_)
    e
  have hjk : j < k := by
    rw [List.length_take] at hj'
    omega
  rw [List.take_take, Nat.min_eq_left (by omega)]
  exact hdirs j hj hjk

/-- Directories seen along the paths are directories of the tree. -/
theorem get?_take_of_ownEntry {u : Tree} (hroot : h.entry p = .ok (.dir u))
    (hn : ∀ n ∈ names, IsName n)
    (hdirs : ∀ k, 0 < k → k < names.length →
      ∃ v, h.ownEntry (p.below (names.take k)) = .ok (.dir v))
    (k : Nat) (hk : 0 < k) (hk' : k < names.length) :
    ∃ v, u.get? (names.take k) = some (.dir v) := by
  -- the shorter paths first: a path shows the tree only where all before it are directories
  induction k using Nat.strongRecOn with
  | ind k ih =>
    obtain ⟨v, hv⟩ := hdirs k hk hk'
    exact ⟨v, (ownEntry_take hroot hn hk hk' (fun j hj hjk => ih j hjk hj (by omega)) _).1 hv⟩

/-- Along real directories, the paths below a root show just what its tree holds. -/
theorem ownEntry_below_iff {e₀ e : Entry} (hroot : h.entry p = .ok e₀) (hn : ∀ n ∈ names, IsName n)
    (hne : names ≠ []) :
    (∀ k, 0 < k → k < names.length → ∃ v, h.ownEntry (p.below (names.take k)) = .ok (.dir v)) ∧
        h.ownEntry (p.below names) = .ok e ↔
      ∃ u, e₀ = .dir u ∧ u.get? names = some e := by
  have hp : p.spelling.octets ≠ [] := by
    obtain ⟨d, hl, -⟩ := entry_eq_ok_iff.1 hroot
    exact (locate_eq_ok_iff.1 hl).1
  constructor
  · rintro ⟨hdirs, he⟩
    obtain ⟨u, hu⟩ := exists_dir_of_ownEntry_below hp hn hne he
    obtain rfl : e₀ = .dir u := Except.ok.inj (hroot.symm.trans hu)
    exact ⟨u, rfl, (ownEntry_below hu hn hne (get?_take_of_ownEntry hu hn hdirs) e).1 he⟩
  · rintro ⟨u, rfl, he⟩
    have htree : ∀ k, 0 < k → k < names.length → ∃ v, u.get? (names.take k) = some (.dir v) := by
      intro k _ hk
      have hsplit : u.get? (names.take k ++ names.drop k) = some e := by rwa [List.take_append_drop]
      exact Tree.exists_dir_of_get?_append hsplit (by simpa using hk)
    refine ⟨fun k hk hk' => ?_, (ownEntry_below hroot hn hne htree e).2 he⟩
    obtain ⟨v, hv⟩ := htree k hk hk'
    exact ⟨v, (ownEntry_take hroot hn hk hk' (fun j hj hjk => htree j hj (by omega)) _).2 hv⟩

end Host

end CommitGate

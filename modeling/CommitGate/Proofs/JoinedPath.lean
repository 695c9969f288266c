import CommitGate.Proofs.MakePath
import CommitGate.Proofs.ToolPlace

/-!
# What is joined to a directory

The way to a path that is joined to a directory goes over the directory and on from there: how the
directory is spelled, and whether it is spelled at all, does not count, only how many links have
been followed on the way to it. A path that leads to a file is a name in a directory, and what is
above it is that directory, spelled without the slashes and points at its end.

Results:

* `resolveFrom_of_passes`: a way over some steps goes on from where they end.
* `locate_join`, `locate_of_relative`: where a joined path leads, and the path alone.
* `exists_reaches_parent?`: what is above a file is the directory that it is a name in.
* `locate_child_directoryOf`: the same for a file in the working directory.
-/

namespace CommitGate

open Text (Octets)

namespace Path

/-! ## Spellings -/

/-- A relative path is joined after a slash, which the path may have at its end already. -/
theorem exists_octets_join {p r : Path} (hp : p.spelling.octets ≠ []) (hr : r.isAbsolute = false) :
    ∃ q, (p.join r).spelling.octets = q ++ slash :: r.spelling.octets ∧
      (p.spelling.octets = q ∨ p.spelling.octets = q ++ [slash]) := by
  rw [join, hr, if_neg Bool.false_ne_true]
  dsimp only
  by_cases hlast : p.spelling.octets.getLast? = some slash
  · obtain ⟨q, hq⟩ := List.getLast?_eq_some_iff.1 hlast
    refine ⟨q, ?_, .inr hq⟩
    rw [if_pos (.inr hlast)]
    simp [hq]
  · refine ⟨p.spelling.octets, ?_, .inl rfl⟩
    rw [if_neg (by simp [hp, hlast])]

/-- What a path spells up to its last slash. -/
def front (p : Path) : Path :=
  ⟨⟨(p.spelling.octets.reverse.dropWhile (· ≠ slash)).reverse⟩⟩

theorem front_of_not_mem {p : Path} (h : slash ∉ p.spelling.octets) : p.front = ⟨⟨[]⟩⟩ := by
  have hdrop : p.spelling.octets.reverse.dropWhile (· ≠ slash) = [] := by
    rw [List.dropWhile_eq_nil_iff]
    intro c hc
    simpa using fun heq : c = slash => h (heq ▸ List.mem_reverse.1 hc)
  rw [front, hdrop]
  rfl

theorem front_of_slash {p : Path} {a b : Octets} (h : p.spelling.octets = a ++ slash :: b)
    (hb : slash ∉ b) : p.front = ⟨⟨a ++ [slash]⟩⟩ := by
  have hpass : ∀ c ∈ b.reverse, decide (c ≠ slash) = true := by
    intro c hc
    simpa using fun heq : c = slash => hb (heq ▸ List.mem_reverse.1 hc)
  have hrev : (a ++ slash :: b).reverse = b.reverse ++ slash :: a.reverse := by simp
  rw [front, h, hrev, List.dropWhile_append_of_pos hpass]
  simp

theorem dropIdle_concat {b : Octets} (hb : ¬ Idle b) (pieces : List (Octets)) :
    dropIdle (pieces ++ [b]) = pieces ++ [b] := by
  have hdrop : (b :: pieces.reverse).dropWhile (fun s => decide (s = [] ∨ s = [point])) =
      b :: pieces.reverse :=
    List.dropWhile_cons_of_neg (by simpa [Idle] using hb)
  rw [dropIdle, List.reverse_append, List.reverse_singleton, List.singleton_append, hdrop,
    List.reverse_cons, List.reverse_reverse]

theorem intercalate_dropIdle_ne_nil {c : UInt8} {piece : Octets} (hpiece : ¬ Idle (c :: piece))
    (pieces : List (Octets)) : [slash].intercalate (dropIdle ((c :: piece) :: pieces)) ≠ [] := by
  obtain ⟨idle, hsplit, hidle⟩ := exists_dropIdle ((c :: piece) :: pieces)
  cases hleft : dropIdle ((c :: piece) :: pieces) with
  | nil =>
    rw [hleft, List.nil_append] at hsplit
    exact absurd (hidle (c :: piece) (hsplit ▸ List.mem_cons_self)) hpiece
  | cons x xs =>
    rw [hleft, List.cons_append, List.cons.injEq] at hsplit
    rw [← hsplit.1]
    cases xs <;> simp

/-- Above a path with a slash before its last piece is a path, when that piece counts. -/
theorem exists_parent?_of_slash {p : Path} {a b : Octets}
    (hp : p.spelling.octets = a ++ slash :: b) (hb : slash ∉ b) (hcounts : ¬ Idle b) :
    ∃ q, p.parent? = some q ∧ q.spelling.octets ≠ [] := by
  have hcut (s : Octets) : slashPieces (s ++ slash :: b) = slashPieces s ++ [b] := by
    rw [slashPieces_append_slash, slashPieces_of_not_mem hb]
  have htail : ∃ front, slashPieces (a ++ slash :: b).tail = front ++ [b] := by
    cases a with
    | nil => exact ⟨[], slashPieces_of_not_mem hb⟩
    | cons c a => exact ⟨slashPieces a, hcut a⟩
  simp only [parent?]
  rw [hp]
  generalize hpair : (if (a ++ slash :: b).head? = some slash then ([slash], (a ++ slash :: b).tail)
    else if (slashPieces (a ++ slash :: b)).head? = some [point] then
      ([point], (a ++ slash :: b).tail)
    else ([], a ++ slash :: b)) = pair
  obtain ⟨start, body⟩ := pair
  -- what is spelled above the piece is not empty
  have hbody : ∃ front, slashPieces body = front ++ [b] ∧
      start ++ [slash].intercalate (dropIdle front) ≠ [] := by
    split at hpair
    · cases hpair
      obtain ⟨front, hfront⟩ := htail
      exact ⟨front, hfront, by simp⟩
    · next hroot =>
      split at hpair
      · cases hpair
        obtain ⟨front, hfront⟩ := htail
        exact ⟨front, hfront, by simp⟩
      · next hpoint =>
        cases hpair
        refine ⟨slashPieces a, hcut a, ?_⟩
        cases a with
        | nil => exact absurd rfl hroot
        | cons c a =>
          have hc : c ≠ slash := fun h => hroot (by rw [h]; rfl)
          obtain ⟨first, rest, ha⟩ := List.exists_cons_of_ne_nil (slashPieces_ne_nil a)
          have hpieces : slashPieces (c :: a) = (c :: first) :: rest := by
            rw [slashPieces_cons hc, ha, Text.extendFirst]
          have hcount : ¬ Idle (c :: first) := by
            rintro (hnil | hdot)
            · cases hnil
            · exact hpoint (by rw [hcut, hpieces, hdot]; rfl)
          rw [hpieces, List.nil_append]
          exact intercalate_dropIdle_ne_nil hcount rest
  obtain ⟨front, hfront, hne⟩ := hbody
  simp only [hfront, dropIdle_concat hcounts]
  split
  · next hnil => simp at hnil
  · refine ⟨_, rfl, fun h => hne ?_⟩
    rwa [List.dropLast_concat] at h

end Path

namespace Host

open CommitGate.Path (slashPieces_append_slash slashPieces_slash slashPieces_of_not_mem)

variable {t : Tree} {last : Bool} {links k : Nat} {place q : List RawText} {ms ss : List Step}

/-! ## Steps -/

theorem moves_append_slash (a b : Octets) : moves (a ++ Path.slash :: b) = moves a ++ moves b := by
  rw [moves, slashPieces_append_slash, List.filterMap_append]
  rfl

theorem moves_slash (s : Octets) : moves (Path.slash :: s) = moves s := by
  rw [moves, slashPieces_slash]
  rfl

theorem moves_concat_slash (s : Octets) : moves (s ++ [Path.slash]) = moves s := by
  have hnil : moves [] = [] := by
    rw [moves, slashPieces_of_not_mem List.not_mem_nil]
    rfl
  rw [moves_append_slash, hnil, List.append_nil]

/-- The steps behind a slash are the same, whatever stands before it. -/
theorem steps_append_slash (a b : Octets) :
    steps (a ++ Path.slash :: b) = moves a ++ steps (Path.slash :: b) := by
  rw [steps_eq, steps_eq, moves_append_slash, moves_slash,
    List.getLast?_append_of_ne_nil _ (List.cons_ne_nil Path.slash b), List.append_assoc]

theorem steps_slash_cons {s : Octets} (hs : s ≠ []) : steps (Path.slash :: s) = steps s := by
  rw [steps_eq, steps_eq, moves_slash, ← List.singleton_append, List.getLast?_append_of_ne_nil _ hs]

/-- A way that goes behind a slash takes a step. -/
theorem steps_slash_ne_nil (s : Octets) : steps (Path.slash :: s) ≠ [] := by
  by_cases hslash : (Path.slash :: s).getLast? = some Path.slash
  · rw [steps_eq, if_pos hslash]
    simp
  · obtain ⟨a, b, hs, hb⟩ :=
      Path.exists_last_slash (List.mem_cons_self : Path.slash ∈ Path.slash :: s)
    have hstep : ∃ x, step? b = some x := by
      unfold step?
      split
      · next hnil =>
        rw [hs, hnil, List.getLast?_concat] at hslash
        exact absurd rfl hslash
      · split
        · exact ⟨_, rfl⟩
        · split <;> exact ⟨_, rfl⟩
    obtain ⟨x, hx⟩ := hstep
    have hone : moves b = [x] := by
      rw [moves, slashPieces_of_not_mem hb, List.filterMap_cons_some hx]
      rfl
    rw [hs, steps_eq, moves_append_slash, hone]
    simp

theorem moves_name {n : RawText} (hn : IsName n) : moves n.octets = [.name n] := by
  rw [moves, slashPieces_of_not_mem hn.2.2.2.1, List.filterMap_cons_some (step?_name hn)]
  rfl

theorem steps_name {n : RawText} (hn : IsName n) : steps n.octets = [.name n] := by
  have hlast : n.octets.getLast? ≠ some Path.slash :=
    fun h => hn.2.2.2.1 (List.mem_of_mem_getLast? h)
  rw [steps_eq, moves_name hn, if_neg hlast, List.append_nil]

/-! ## Going on behind a passage -/

/-- **A way over some steps goes on from where they end.** -/
theorem resolveFrom_of_passes (h : Passes t links place ms k q) (hss : ss ≠ []) :
    resolveFrom t last links place (ms ++ ss) = resolveFrom t last k q ss := by
  induction h with
  | done => rfl
  | stay _ ih => rw [List.cons_append, resolveFrom_stay, ih]
  | slash _ ih => rw [List.cons_append, resolveFrom_slash, ih]
  | up _ ih => rw [List.cons_append, resolveFrom_up, ih]
  | dir hn _ ih =>
    rw [List.cons_append, resolveFrom_name, hn]
    exact ih
  | @link _ _ _ _ _ ss' _ _ hn hg _ ih =>
    have hgoes : ¬ (ss' ++ ss = [] ∧ last = false) := fun h => hss (List.append_eq_nil_iff.1 h.1).2
    rw [List.cons_append, resolveFrom_name, hn]
    dsimp only
    rw [if_neg hgoes, onward, if_neg hg, ← List.append_assoc, ih]

theorem passes_stays (hstay : ∀ x ∈ ms, x = .stay) (h : Passes t links place ms k q) :
    k = links ∧ q = place := by
  induction ms with
  | nil =>
    cases h
    exact ⟨rfl, rfl⟩
  | cons m ms ih =>
    obtain ⟨rfl, hrest⟩ := List.forall_mem_cons.1 hstay
    cases h with
    | stay h => exact ih hrest h

/-- Points behind the steps of a passage do not count. -/
theorem Passes.of_append_stays (hstay : ∀ x ∈ ss, x = .stay)
    (h : Passes t links place (ms ++ ss) k q) : Passes t links place ms k q := by
  generalize hall : ms ++ ss = all at h
  -- where the steps have been taken, points alone are left
  have hend : ∀ {all : List Step} {links : Nat} {place : List RawText}, [] ++ ss = all →
      Passes t links place all k q → Passes t links place [] k q := by
    rintro _ links place rfl h
    obtain ⟨rfl, rfl⟩ := passes_stays hstay h
    exact .done
  induction h generalizing ms with
  | done =>
    obtain ⟨rfl, -⟩ := List.append_eq_nil_iff.1 hall
    exact .done
  | stay h ih =>
    cases ms with
    | nil => exact hend hall (.stay h)
    | cons m ms => cases hall; exact .stay (ih rfl hend)
  | slash h ih =>
    cases ms with
    | nil => exact hend hall (.slash h)
    | cons m ms => cases hall; exact .slash (ih rfl hend)
  | up h ih =>
    cases ms with
    | nil => exact hend hall (.up h)
    | cons m ms => cases hall; exact .up (ih rfl hend)
  | dir hn h ih =>
    cases ms with
    | nil => exact hend hall (.dir hn h)
    | cons m ms => cases hall; exact .dir hn (ih rfl hend)
  | link hn hg h ih =>
    cases ms with
    | nil => exact hend hall (.link hn hg h)
    | cons m ms => cases hall; exact .link hn hg (ih (List.append_assoc ..) hend)

/-- Names of directories, one in the other, are passed over. -/
theorem passes_names {names : List RawText} {u : Tree} (links : Nat)
    (hd : t.get? (place ++ names) = some (.dir u)) :
    Passes t links place (names.map .name) links (place ++ names) := by
  induction names generalizing place with
  | nil => simpa using Passes.done
  | cons n names ih =>
    rw [← List.singleton_append, ← List.append_assoc] at hd ⊢
    have hn : ∃ v, t.get? (place ++ [n]) = some (.dir v) := by
      cases names with
      | nil => exact ⟨u, by simpa using hd⟩
      | cons m names => exact Tree.exists_dir_of_get?_append hd (by simp)
    obtain ⟨v, hv⟩ := hn
    exact .dir hv (ih hd)

/-! ## Joined paths -/

variable {h : Host} {p r : Path}

/-- The way to the directory at a path ends at a place, with so many links that may still be
followed. -/
structure Reaches (h : Host) (p : Path) (k : Nat) (place : List RawText) : Prop where
  nonempty : p.spelling.octets ≠ []
  nul : 0 ∉ p.spelling.octets
  passes : Passes h.tree 40 (origin h.directory p.spelling.octets) (moves p.spelling.octets) k place

/-- Where a relative path leads from a place, with so many links that may be followed. -/
def locateFrom (h : Host) (last : Bool) (k : Nat) (place : List RawText) (r : Path) :
    Except Fault (List RawText) :=
  if r.spelling.octets.contains 0 then .error .nulInPath
  else resolveFrom h.tree last k place (steps (Path.slash :: r.spelling.octets))

/-- **A joined path goes on from the directory.** -/
theorem Reaches.locate_join (hp : h.Reaches p k place) (hr : r.isAbsolute = false) (last : Bool) :
    h.locate last (p.join r) = h.locateFrom last k place r := by
  obtain ⟨a, hjoin, ha⟩ := Path.exists_octets_join hp.nonempty hr
  have hmoves : moves a = moves p.spelling.octets := by
    rcases ha with ha | ha <;> rw [ha]
    exact (moves_concat_slash a).symm
  have horigin : origin h.directory (a ++ Path.slash :: r.spelling.octets) =
      origin h.directory p.spelling.octets := by
    rcases ha with ha | ha
    · rw [origin, origin, ha, List.head?_append_of_ne_nil _ (ha ▸ hp.nonempty)]
    · rw [origin, origin, ha]
      cases a <;> rfl
  have hnul : (a ++ Path.slash :: r.spelling.octets).contains 0 =
      r.spelling.octets.contains 0 := by
    have hfree : 0 ∉ a := fun hmem => hp.nul (by rcases ha with ha | ha <;> simp [ha, hmem])
    have hslash : 0 ≠ Path.slash := by decide
    simp [hfree, hslash]
  rw [locate, hjoin, if_neg (by simp), hnul, horigin, steps_append_slash, hmoves,
    resolveFrom_of_passes hp.passes (steps_slash_ne_nil _), locateFrom]

/-- A relative path that is not empty goes on from the working directory. -/
theorem locate_of_relative (hr : r.isAbsolute = false) (hne : r.spelling.octets ≠ [])
    (last : Bool) : h.locate last r = h.locateFrom last 40 h.directory r := by
  have hhead : r.spelling.octets.head? ≠ some Path.slash := by
    simpa [Path.isAbsolute] using hr
  rw [locate, if_neg hne, origin, if_neg hhead, ← steps_slash_cons hne, locateFrom]

theorem reaches_workingPath (wf : h.tree.Proper) (hworking : h.Working) :
    h.Reaches h.workingPath 40 h.directory := by
  obtain ⟨u, hu⟩ := hworking
  have hnames := (wf.get? hu).1
  have hmoves : moves h.workingPath.spelling.octets = h.directory.map .name := by
    rw [workingPath, absolute_eq_below hnames, moves_below _ hnames]
    rfl
  have horigin : origin h.directory h.workingPath.spelling.octets = [] := by
    rw [origin, workingPath, octets_absolute]
    rfl
  have hlocate : h.locate true h.workingPath = .ok h.directory := locate_absolute wf hu (by simp)
  obtain ⟨hnonempty, hnul, -⟩ := locate_eq_ok_iff.1 hlocate
  refine ⟨hnonempty, hnul, ?_⟩
  rw [hmoves, horigin]
  exact passes_names 40 hu

/-! ## Above a file -/

/-- A piece that asks for a name is that name. -/
theorem isName_of_step? {b : Octets} {n : RawText} (hstep : step? b = some (.name n))
    (hslash : Path.slash ∉ b) (hnul : 0 ∉ b) : b = n.octets ∧ IsName n := by
  unfold step? at hstep
  split at hstep
  · cases hstep
  · next hnil =>
    split at hstep
    · cases hstep
    · next hpoint =>
      split at hstep
      · cases hstep
      · next hpoints =>
        cases hstep
        exact ⟨rfl, hnil, hpoint, hpoints, hslash, hnul⟩

theorem getLast?_filterMap_innerComponent? {pieces : List Octets} {n : RawText}
    (h : (pieces.filterMap step?).getLast? = some (.name n)) :
    (pieces.filterMap Path.innerComponent?).getLast? = some (.name n) := by
  induction pieces using List.reverseRecOn with
  | nil => cases h
  | append_singleton pieces piece ih =>
    rw [List.filterMap_append] at h ⊢
    cases hstep : step? piece with
    | none =>
      obtain rfl := eq_nil_of_step?_eq_none hstep
      exact (congrArg List.getLast? (List.append_nil _)).trans
        (ih ((congrArg List.getLast? (List.append_nil _)).symm.trans h))
    | some x =>
      rw [List.filterMap_cons_some hstep, List.filterMap_nil, List.getLast?_concat] at h
      obtain rfl := Option.some.inj h
      rw [List.filterMap_cons_some (innerComponent?_of_step? hstep), List.filterMap_nil,
        List.getLast?_concat]

/-- A path whose steps end in a name has that name. -/
theorem fileName?_of_steps {n : RawText}
    (h : (steps p.spelling.octets).getLast? = some (.name n)) : p.fileName? = some n := by
  have hmoves : (moves p.spelling.octets).getLast? = some (.name n) := by
    rw [steps_eq] at h
    split at h
    · rw [List.getLast?_concat] at h
      cases h
    · rwa [List.append_nil] at h
  have hinner := getLast?_filterMap_innerComponent? hmoves
  have hlast : p.components.getLast? = some (.name n) := by
    rw [Path.components, Path.componentsOf]
    split
    · rw [List.getLast?_cons, hinner, Option.getD_some]
    · split
      · rw [List.getLast?_cons, hinner, Option.getD_some]
      · exact hinner
  rw [Path.fileName?, hlast]

section File

variable (hworking : h.Working) {node : Nat} {content : Octets} {mode : Nat}
  (hfile : h.entry p = .ok (.file node content mode))

include hworking hfile

/-- The steps to a file end in a name. -/
theorem exists_name_of_file : ∃ n, (steps p.spelling.octets).getLast? = some (.name n) := by
  obtain ⟨d, hlocate, hd⟩ := entry_eq_ok_iff.1 hfile
  obtain ⟨-, -, hleads⟩ := locate_eq_ok_iff.1 hlocate
  exact hleads.exists_name hd (exists_dir_origin hworking _)

/-- **A path that leads to a file ends in a name**, with a slash before it or alone. -/
theorem exists_spelling_of_file : ∃ n, IsName n ∧
    (p.spelling = n ∨ ∃ a, p.spelling.octets = a ++ Path.slash :: n.octets) := by
  obtain ⟨d, hlocate, -⟩ := entry_eq_ok_iff.1 hfile
  obtain ⟨hnil, hnul, -⟩ := locate_eq_ok_iff.1 hlocate
  obtain ⟨n, hn⟩ := exists_name_of_file hworking hfile
  by_cases hslash : Path.slash ∈ p.spelling.octets
  · obtain ⟨a, b, hp, hb⟩ := Path.exists_last_slash hslash
    rw [hp] at hn hnul
    obtain ⟨rfl, hname⟩ :=
      isName_of_step? (step?_of_getLast?_steps hb hn) hb fun hmem => hnul (by simp [hmem])
    exact ⟨n, hname, .inr ⟨a, hp⟩⟩
  · rw [← steps_slash_cons hnil, ← List.nil_append (Path.slash :: _)] at hn
    obtain ⟨hp, hname⟩ := isName_of_step? (step?_of_getLast?_steps hslash hn) hslash hnul
    exact ⟨n, hname, .inl (RawText.ext hp)⟩

end File

/-- The steps to what is above a name are those up to the name, but for points. -/
theorem exists_stays_of_parent? {d : Path} {n : RawText} (hparent : p.parent? = some d)
    (hne : d.spelling.octets ≠ []) (hmoves : moves p.spelling.octets = ms ++ [.name n]) :
    ∃ stays, (∀ x ∈ stays, x = .stay) ∧ ms = moves d.spelling.octets ++ stays := by
  obtain ⟨s, hone, hp, -⟩ := exists_moves_of_parent? hparent hne
  obtain ⟨before, x, after, hs, -, hbefore, hafter⟩ := exists_step_of_onePiece hone
  rw [hmoves, hs] at hp
  rcases List.eq_nil_or_concat after with rfl | ⟨front, y, rfl⟩
  · rw [← List.append_assoc] at hp
    exact ⟨before, hbefore, List.append_inj_left' hp rfl⟩
  · -- a name is no point
    have hlast := congrArg List.getLast? hp
    rw [List.concat_eq_append, List.getLast?_concat, ← List.cons_append, ← List.append_assoc,
      ← List.append_assoc, List.getLast?_concat, hafter y (by simp)] at hlast
    cases hlast

/-- **What is above a file is the directory that it is a name in**, which its path spells up to the
last slash. -/
theorem exists_reaches_parent? {node : Nat} {content : Octets} {mode : Nat} {a : Octets}
    {n : RawText} (hfile : h.entry p = .ok (.file node content mode)) (hn : IsName n)
    (hp : p.spelling.octets = a ++ Path.slash :: n.octets) :
    ∃ d k place, p.parent? = some d ∧ h.Reaches d k place ∧
      h.Reaches ⟨⟨a ++ [Path.slash]⟩⟩ k place := by
  obtain ⟨target, hlocate, -⟩ := entry_eq_ok_iff.1 hfile
  obtain ⟨-, hnul, hleads⟩ := locate_eq_ok_iff.1 hlocate
  rw [hp, steps_append_slash, steps_slash_cons hn.1, steps_name hn] at hleads
  obtain ⟨k, place, hpass, -⟩ := hleads.passes (by simp) (by simp)
  have hcounts : ¬ Path.Idle n.octets :=
    not_or.2 ⟨hn.1, hn.2.1⟩
  obtain ⟨d, hparent, hne⟩ := Path.exists_parent?_of_slash hp hn.2.2.2.1 hcounts
  have hmoves : moves p.spelling.octets = moves a ++ [.name n] := by
    rw [hp, moves_append_slash, moves_name hn]
  obtain ⟨stays, hstays, hway⟩ := exists_stays_of_parent? hparent hne hmoves
  obtain ⟨-, -, -, rest, hrest⟩ := exists_moves_of_parent? hparent hne
  refine ⟨d, k, place, hparent, ⟨hne, fun hmem => ?_, ?_⟩, ⟨by simp, fun hmem => ?_, ?_⟩⟩
  · exact hnul (hrest ▸ List.mem_append_left rest hmem)
  · have hhead : d.spelling.octets.head? = (a ++ Path.slash :: n.octets).head? := by
      rw [← hp, ← hrest, List.head?_append_of_ne_nil _ hne]
    rw [hway] at hpass
    rw [origin, hhead]
    exact hpass.of_append_stays hstays
  · rw [hp, List.append_cons] at hnul
    exact hnul (List.mem_append_left _ hmem)
  · have hhead : (a ++ [Path.slash]).head? = (a ++ Path.slash :: n.octets).head? := by
      cases a <;> rfl
    show Passes h.tree 40 (origin h.directory (a ++ [Path.slash])) (moves (a ++ [Path.slash])) k
      place
    rw [moves_concat_slash, origin, hhead]
    exact hpass

theorem isAbsolute_name {n : RawText} (hn : IsName n) : (⟨n⟩ : Path).isAbsolute = false := by
  simp only [Path.isAbsolute, decide_eq_false_iff_not]
  exact fun h => hn.2.2.2.1 (List.mem_of_mem_head? (by simp [h]))

theorem child_concat_slash {a : Octets} {n : RawText} (hn : IsName n)
    (hp : p.spelling.octets = a ++ Path.slash :: n.octets) :
    (⟨⟨a ++ [Path.slash]⟩⟩ : Path).child n = p := by
  have hlast : (a ++ [Path.slash]).getLast? = some Path.slash := List.getLast?_concat
  rw [Path.child, Path.join, isAbsolute_name hn, if_neg Bool.false_ne_true]
  dsimp only
  rw [if_pos (.inr hlast)]
  refine Path.ext (RawText.ext ?_)
  rw [hp, List.append_assoc, List.singleton_append]

/-- The directory that the file at a path is a name in, as the path spells it; for a path that is no
more than a name, the working directory. -/
def directoryOf (h : Host) (p : Path) : Path :=
  if p.front.spelling.octets = [] then h.workingPath else p.front

theorem directoryOf_of_slash {a : Octets} {n : RawText} (hn : IsName n)
    (hp : p.spelling.octets = a ++ Path.slash :: n.octets) :
    h.directoryOf p = ⟨⟨a ++ [Path.slash]⟩⟩ := by
  have hne : p.front.spelling.octets ≠ [] := by
    rw [Path.front_of_slash hp hn.2.2.2.1]
    simp
  rw [directoryOf, if_neg hne, Path.front_of_slash hp hn.2.2.2.1]

theorem directoryOf_of_not_mem (hp : Path.slash ∉ p.spelling.octets) :
    h.directoryOf p = h.workingPath := by
  rw [directoryOf, Path.front_of_not_mem hp, if_pos rfl]

/-- **A file is a name in its directory.** -/
theorem locate_child_directoryOf (wf : h.tree.Proper) (hworking : h.Working)
    {node : Nat} {content : Octets} {mode : Nat}
    (hfile : h.entry p = .ok (.file node content mode)) :
    ∃ n, IsName n ∧ ∀ last, h.locate last ((h.directoryOf p).child n) = h.locate last p := by
  obtain ⟨n, hn, hname | ⟨a, hp⟩⟩ := exists_spelling_of_file hworking hfile
  · obtain rfl : p = ⟨n⟩ := congrArg Path.mk hname
    have hrelative := isAbsolute_name hn
    refine ⟨n, hn, fun last => ?_⟩
    rw [directoryOf_of_not_mem hn.2.2.2.1, Path.child,
      (reaches_workingPath wf hworking).locate_join hrelative, locate_of_relative hrelative hn.1]
  · refine ⟨n, hn, fun last => ?_⟩
    rw [directoryOf_of_slash hn hp, child_concat_slash hn hp]

end Host

end CommitGate

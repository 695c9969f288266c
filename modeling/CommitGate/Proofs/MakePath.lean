import CommitGate.Proofs.FileChange
import CommitGate.Proofs.Places

/-!
# Making the directories of a path

The directories of a path are made from the innermost one that is there on. A path without a `..`
never leaves one of them again. So what it leads to afterwards is new, unless all were there and
nothing was made.

Results:

* `exists_parent?`: a path is what is above it, a slash and one piece that counts.
* `exists_namesAt_of_parent?`: the names in the directory of a path tell where those in the
  directory above it are.
* `makePath_eq_self`: nothing was made where a path without a `..` leads to a directory from before.
-/

namespace CommitGate

open Text (Octets)

namespace Path

/-- A component of the path is a `..`. -/
def Climbs (p : Path) : Prop :=
  .parent ∈ p.components

instance (p : Path) : Decidable p.Climbs :=
  inferInstanceAs (Decidable (_ ∈ _))

/-- The piece does not count. -/
def Idle (piece : Octets) : Prop :=
  piece = [] ∨ piece = [point]

/-! ## What is above a path -/

theorem exists_dropIdle (pieces : List (Octets)) :
    ∃ idle, pieces = dropIdle pieces ++ idle ∧ ∀ piece ∈ idle, Idle piece := by
  refine ⟨(pieces.reverse.takeWhile fun s => s = [] ∨ s = [point]).reverse, ?_, fun piece hp => ?_⟩
  · rw [dropIdle, ← List.reverse_append, List.takeWhile_append_dropWhile, List.reverse_reverse]
  · simpa [Idle] using List.mem_takeWhile_imp (List.mem_reverse.1 hp)

/-- What is left ends in a piece that counts. -/
theorem exists_concat_of_dropIdle {pieces : List (Octets)} (hne : dropIdle pieces ≠ []) :
    ∃ front piece, dropIdle pieces = front ++ [piece] ∧ ¬ Idle piece := by
  obtain ⟨front, piece, heq⟩ := (List.eq_nil_or_concat (dropIdle pieces)).resolve_left hne
  rw [List.concat_eq_append] at heq
  refine ⟨front, piece, heq, fun hidle => ?_⟩
  rw [dropIdle, List.reverse_eq_iff, List.reverse_append, List.reverse_singleton] at heq
  have hhead := List.head?_dropWhile_not (fun s => decide (s = [] ∨ s = [point])) pieces.reverse
  rw [heq] at hhead
  simp [Idle] at hhead hidle
  exact hidle.elim hhead.1 hhead.2

/-- Pieces that are cut in two are those before and those after a slash. -/
theorem exists_of_slashPieces {s : Octets} {a b : List (Octets)} (ha : a ≠ []) (hb : b ≠ [])
    (h : slashPieces s = a ++ b) :
    ∃ front back, s = front ++ slash :: back ∧ slashPieces front = a ∧ slashPieces back = b := by
  induction s generalizing a with
  | nil =>
    obtain ⟨x, a, rfl⟩ := List.exists_cons_of_ne_nil ha
    rw [slashPieces_of_not_mem List.not_mem_nil, List.cons_append, List.cons.injEq] at h
    exact absurd (List.append_eq_nil_iff.1 h.2.symm).2 hb
  | cons c s ih =>
    obtain ⟨x, a, rfl⟩ := List.exists_cons_of_ne_nil ha
    by_cases hc : c = slash
    · subst hc
      rw [slashPieces_slash, List.cons_append, List.cons.injEq] at h
      obtain ⟨rfl, h⟩ := h
      by_cases ha' : a = []
      · rw [ha', List.nil_append] at h
        exact ⟨[], s, rfl, by rw [slashPieces_of_not_mem List.not_mem_nil, ha'], h⟩
      · obtain ⟨front, back, rfl, hfront, hback⟩ := ih ha' h
        exact ⟨slash :: front, back, rfl, by rw [slashPieces_slash, hfront], hback⟩
    · rw [slashPieces_cons hc] at h
      obtain ⟨first, rest, hs⟩ := List.exists_cons_of_ne_nil (slashPieces_ne_nil s)
      rw [hs, Text.extendFirst, List.cons_append, List.cons.injEq] at h
      obtain ⟨rfl, rfl⟩ := h
      obtain ⟨front, back, rfl, hfront, hback⟩ := ih (a := first :: a) (by simp) hs
      exact ⟨c :: front, back, rfl, by rw [slashPieces_cons hc, hfront, Text.extendFirst], hback⟩

/-- The text is one piece that counts, beside pieces that do not. -/
def OnePiece (s : Octets) : Prop :=
  ∃ before piece after, slashPieces s = before ++ piece :: after ∧
    (∀ x ∈ before, Idle x) ∧ ¬ Idle piece ∧ ∀ x ∈ after, Idle x

theorem not_onePiece_nil : ¬ OnePiece [] := by
  rintro ⟨before, piece, after, hcut, -, hpiece, -⟩
  rw [slashPieces_of_not_mem List.not_mem_nil] at hcut
  have hmem : piece ∈ [([] : Octets)] := by simp [hcut]
  exact hpiece (.inl (List.mem_singleton.1 hmem))

theorem OnePiece.of_slash {s : Octets} (h : OnePiece (slash :: s)) : OnePiece s := by
  obtain ⟨before, piece, after, hcut, hbefore, hpiece, hafter⟩ := h
  rw [slashPieces_slash] at hcut
  cases before with
  | nil =>
    rw [List.nil_append, List.cons.injEq] at hcut
    exact absurd (.inl hcut.1.symm) hpiece
  | cons x before =>
    rw [List.cons_append, List.cons.injEq] at hcut
    exact ⟨before, piece, after, hcut.2, fun y hy => hbefore y (List.mem_cons_of_mem x hy), hpiece,
      hafter⟩

/-- A text that starts with a point as a piece ends there or goes on with a slash. -/
theorem exists_of_head?_point {s : Octets} (h : (slashPieces s).head? = some [point]) :
    ∃ body, s = point :: body ∧ (body = [] ∨ ∃ t, body = slash :: t) := by
  cases s with
  | nil => simp [slashPieces_of_not_mem] at h
  | cons c body =>
    by_cases hc : c = slash
    · simp [hc, slashPieces_slash] at h
    · obtain ⟨first, rest, hbody⟩ := List.exists_cons_of_ne_nil (slashPieces_ne_nil body)
      rw [slashPieces_cons hc, hbody, Text.extendFirst, List.head?_cons, Option.some.injEq,
        List.cons.injEq] at h
      obtain ⟨rfl, rfl⟩ := h
      refine ⟨body, rfl, ?_⟩
      cases body with
      | nil => exact .inl rfl
      | cons d t =>
        by_cases hd : d = slash
        · exact .inr ⟨t, by rw [hd]⟩
        · obtain ⟨first, rest', ht⟩ := List.exists_cons_of_ne_nil (slashPieces_ne_nil t)
          rw [slashPieces_cons hd, ht, Text.extendFirst, List.cons.injEq] at hbody
          cases hbody.1

/-- A text with a piece that counts is the text up to its last but one such piece, a slash and one
piece more. -/
theorem exists_of_dropIdle {s : Octets} (hne : dropIdle (slashPieces s) ≠ []) :
    dropIdle (dropIdle (slashPieces s)).dropLast = [] ∧ OnePiece s ∨
      ∃ front back, s = front ++ slash :: back ∧
        dropIdle (dropIdle (slashPieces s)).dropLast = slashPieces front ∧ OnePiece back := by
  obtain ⟨after, hpieces, hafter⟩ := exists_dropIdle (slashPieces s)
  obtain ⟨above, piece, hlast, hpiece⟩ := exists_concat_of_dropIdle hne
  obtain ⟨before, habove, hbefore⟩ := exists_dropIdle above
  have hcut : slashPieces s = dropIdle above ++ (before ++ piece :: after) := by
    rw [hpieces, hlast]
    nth_rewrite 1 [habove]
    simp
  rw [hlast, List.dropLast_concat]
  by_cases hnil : dropIdle above = []
  · rw [hnil, List.nil_append] at hcut
    exact .inl ⟨hnil, before, piece, after, hcut, hbefore, hpiece, hafter⟩
  · obtain ⟨front, back, hs, hfront, hback⟩ := exists_of_slashPieces hnil (by simp) hcut
    exact .inr ⟨front, back, hs, hfront.symm, before, piece, after, hback, hbefore, hpiece, hafter⟩

/-- **A path is what is above it, a slash and one piece.** Where the root alone is above it, that is
the slash. -/
theorem exists_parent? {p q : Path} (hq : p.parent? = some q) (hne : q.spelling.octets ≠ []) :
    ∃ s, OnePiece s ∧ (p.spelling.octets = q.spelling.octets ++ slash :: s ∨
      q.spelling.octets = [slash] ∧ p.spelling.octets = slash :: s) := by
  simp only [parent?] at hq
  generalize p.spelling.octets = s at hq ⊢
  generalize hpair : (if s.head? = some slash then ([slash], s.tail)
    else if (slashPieces s).head? = some [point] then ([point], s.tail) else ([], s)) = pair at hq
  obtain ⟨start, body⟩ := pair
  have hstart : s = start ++ body ∧ (start = [] ∨ start = [slash] ∨
      start = [point] ∧ (body = [] ∨ ∃ t, body = slash :: t)) := by
    split at hpair
    · next hroot =>
      obtain ⟨rest, rfl⟩ := List.head?_eq_some_iff.1 hroot
      cases hpair
      exact ⟨rfl, .inr (.inl rfl)⟩
    · split at hpair
      · next hpoint =>
        obtain ⟨rest, rfl, hrest⟩ := exists_of_head?_point hpoint
        cases hpair
        exact ⟨rfl, .inr (.inr ⟨rfl, hrest⟩)⟩
      · cases hpair
        exact ⟨rfl, .inl rfl⟩
  obtain ⟨rfl, hkind⟩ := hstart
  simp only at hq
  split at hq
  · split at hq
    · cases hq
      exact absurd rfl hne
    · cases hq
  · next hnil =>
    cases hq
    rcases exists_of_dropIdle hnil with ⟨habove, hone⟩ | ⟨front, back, rfl, habove, hone⟩
    · rw [habove, List.intercalate_nil, List.append_nil]
      obtain rfl | rfl | ⟨rfl, rfl | ⟨t, rfl⟩⟩ := hkind
      · rw [habove] at hne
        exact absurd rfl hne
      · exact ⟨body, hone, .inr ⟨rfl, rfl⟩⟩
      · exact absurd hone not_onePiece_nil
      · exact ⟨t, hone.of_slash, .inl rfl⟩
    · refine ⟨back, hone, .inl ?_⟩
      rw [habove, slashPieces, Text.intercalate_splitOn [slash] front (by simp), List.append_assoc]

/-- What is above an absolute path is absolute. -/
theorem isAbsolute_parent? {p q : Path} (hp : p.isAbsolute = true) (hq : p.parent? = some q)
    (hne : q.spelling.octets ≠ []) : q.isAbsolute = true := by
  simp only [isAbsolute, decide_eq_true_eq] at hp ⊢
  obtain ⟨s, -, hs | ⟨hroot, -⟩⟩ := exists_parent? hq hne
  · rwa [hs, List.head?_append_of_ne_nil _ hne] at hp
  · rw [hroot]
    rfl

end Path

namespace Host

variable {h h' made : Host} {p q : Path} {place : List RawText}

/-! ## The steps above a path -/

theorem climbs_iff : p.Climbs ↔ .up ∈ moves p.spelling.octets := by
  have hpiece : ∀ piece, Path.innerComponent? piece = some .parent ↔ step? piece = some .up := by
    intro piece
    unfold Path.innerComponent? step?
    by_cases hempty : piece = []
    · simp [hempty]
    · by_cases hpoint : piece = [Path.point]
      · simp [hpoint]
      · by_cases hup : piece = [Path.point, Path.point] <;> simp [hempty, hpoint, hup]
  have hinner : .parent ∈ (Path.slashPieces p.spelling.octets).filterMap Path.innerComponent? ↔
      .up ∈ moves p.spelling.octets := by
    simp [moves, List.mem_filterMap, hpiece]
  rw [← hinner, Path.Climbs, Path.components, Path.componentsOf]
  split
  · simp
  · split <;> simp

/-- The steps of one piece are one up or a name, beside points. -/
theorem exists_step_of_onePiece {s : Octets} (hone : Path.OnePiece s) :
    ∃ before x after, moves s = before ++ x :: after ∧ (x = .up ∨ ∃ n, x = .name n) ∧
      (∀ y ∈ before, y = .stay) ∧ ∀ y ∈ after, y = .stay := by
  obtain ⟨before, piece, after, hcut, hbefore, hpiece, hafter⟩ := hone
  have hstay : ∀ {pieces : List (Octets)}, (∀ x ∈ pieces, Path.Idle x) →
      ∀ x ∈ pieces.filterMap step?, x = .stay := by
    intro pieces hidle x hx
    obtain ⟨y, hy, hstep⟩ := List.mem_filterMap.1 hx
    rcases hidle y hy with rfl | rfl
    · cases hstep
    · exact (Option.some.inj hstep).symm
  have hcounts : ∃ x, step? piece = some x ∧ (x = .up ∨ ∃ n, x = .name n) := by
    unfold step?
    split
    · next hempty => exact absurd (.inl hempty) hpiece
    · split
      · next hpoint => exact absurd (.inr hpoint) hpiece
      · split
        · exact ⟨_, rfl, .inl rfl⟩
        · exact ⟨_, rfl, .inr ⟨_, rfl⟩⟩
  obtain ⟨x, hx, hkind⟩ := hcounts
  refine ⟨before.filterMap step?, x, after.filterMap step?, ?_, hkind, hstay hbefore, hstay hafter⟩
  rw [moves, hcut, List.filterMap_append, List.filterMap_cons_some hx]

/-- The steps of one piece are a name, beside points. -/
theorem exists_moves_of_onePiece {s : Octets} (hone : Path.OnePiece s) (hup : .up ∉ moves s) :
    ∃ before n after, moves s = before ++ .name n :: after ∧
      (∀ x ∈ before, x = .stay) ∧ ∀ x ∈ after, x = .stay := by
  obtain ⟨before, x, after, hmoves, rfl | ⟨n, rfl⟩, hbefore, hafter⟩ := exists_step_of_onePiece hone
  · exact absurd (hmoves ▸ List.mem_append_right before List.mem_cons_self) hup
  · exact ⟨before, n, after, hmoves, hbefore, hafter⟩

/-- The steps of a path are those of what is above it and of one piece more. -/
theorem exists_moves_of_parent? (hq : p.parent? = some q) (hne : q.spelling.octets ≠ []) :
    ∃ s, Path.OnePiece s ∧ moves p.spelling.octets = moves q.spelling.octets ++ moves s ∧
      q.spelling.octets <+: p.spelling.octets := by
  obtain ⟨s, hone, hp | ⟨hroot, hp⟩⟩ := Path.exists_parent? hq hne
  · refine ⟨s, hone, ?_, _, hp.symm⟩
    rw [hp, moves, Path.slashPieces_append_slash, List.filterMap_append]
    rfl
  · refine ⟨s, hone, ?_, s, ?_⟩
    · rw [hp, hroot, moves, Path.slashPieces_slash]
      rfl
    · rw [hp, hroot, List.singleton_append]

/-- Points in front of a way do not count. -/
theorem Leads.of_stays {t : Tree} {last : Bool} {links : Nat} {ms ss : List Step} {d : List RawText}
    (hstay : ∀ x ∈ ms, x = .stay) (h : Leads t last links place (ms ++ ss) d) :
    Leads t last links place ss d := by
  induction ms with
  | nil => exact h
  | cons m ms ih =>
    obtain ⟨rfl, hrest⟩ := List.forall_mem_cons.1 hstay
    cases h with
    | stay h => exact ih hrest h

/-- **The names in the directory of a path tell where those in the directory above it are.** What
the path ends in stands among them, a directory or a link. -/
theorem exists_namesAt_of_parent? (hn : h.NamesAt p place) (hq : p.parent? = some q)
    (hne : q.spelling.octets ≠ []) (hclimbs : ¬ p.Climbs) :
    ∃ front n, h.NamesAt q front ∧
      ((∃ u, h.tree.get? (front ++ [n]) = some (.dir u)) ∧ place = front ++ [n] ∨
        ∃ k g, h.tree.get? (front ++ [n]) = some (.link k g)) := by
  obtain ⟨s, hone, hmoves, rest, hstart⟩ := exists_moves_of_parent? hq hne
  rw [climbs_iff, hmoves, List.mem_append, not_or] at hclimbs
  obtain ⟨before, n, after, hs, hbefore, hafter⟩ := exists_moves_of_onePiece hone hclimbs.2
  obtain ⟨hnul, k, hpass⟩ := namesAt_iff.1 hn
  have hnul' : 0 ∉ q.spelling.octets := fun hmem =>
    hnul (hstart ▸ List.mem_append_left rest hmem)
  have horigin : origin h.directory p.spelling.octets = origin h.directory q.spelling.octets := by
    rw [origin, origin, ← hstart, List.head?_append_of_ne_nil _ hne]
  have hway := hpass.leads (by simp) (leads_single h.tree k place "x")
  rw [hmoves, hs, horigin, List.append_assoc] at hway
  obtain ⟨hgo, hgo'⟩ := goes_on_name (before ++ .name n :: after) "x"
  obtain ⟨k', front, hfront, hrest⟩ := hway.passes hgo hgo'
  refine ⟨front, n, namesAt_iff.2 ⟨hnul', k', hfront⟩, ?_⟩
  rw [List.append_assoc] at hrest
  have hname := hrest.of_stays hbefore
  rw [List.cons_append] at hname
  obtain ⟨hgo, hgo'⟩ := goes_on_name after "x"
  rcases hstands : h.tree.get? (front ++ [n]) with _ | (⟨k₁, c, m⟩ | ⟨k₁, g⟩ | u)
  · exact absurd hname (blocked_of_none hstands k' k' (Nat.le_refl _) _ _ _ hgo hgo')
  · exact absurd hname (blocked_of_file hstands k' k' (Nat.le_refl _) _ _ _ hgo hgo')
  · exact .inr ⟨k₁, g, rfl⟩
  · have hend := ((hname.over_dir hstands).of_stays hafter).eq_of_single
    exact .inl ⟨⟨u, rfl⟩, List.append_cancel_right hend⟩

theorem not_climbs_of_parent? (hq : p.parent? = some q) (hne : q.spelling.octets ≠ [])
    (hclimbs : ¬ p.Climbs) : ¬ q.Climbs := by
  obtain ⟨s, -, hmoves, -⟩ := exists_moves_of_parent? hq hne
  rw [climbs_iff, hmoves, List.mem_append, not_or] at hclimbs
  rw [climbs_iff]
  exact hclimbs.1

/-! ## Where nothing is made -/

/-- A path does not lead to a directory from before when its own has just been made. -/
theorem not_dir_of_makeDirectory (hm : h.makeDirectory p = .ok h') (hne : p.spelling.octets ≠ [])
    (hn : h'.NamesAt p place) (u : Tree) : h.tree.get? place ≠ some (.dir u) := by
  intro hu
  obtain ⟨d, -, hd, hs, hgone | ⟨v, hv⟩⟩ := makeDirectory_ok hm
  · -- the new directory is in none, so the path led to the old one already
    have hfree : ∀ x ∈ [d], h'.tree.get? x = none := fun x hx => List.mem_singleton.1 hx ▸ hgone
    have hback : SameBut [d] h' h := hs.symm fun x hx => by simp [hfree x hx]
    have hold : h.NamesAt p place := hn.sameBut hback fun x n k g hx hg => by
      rw [hfree _ hx] at hg
      cases hg
    rw [makeDirectory_of_entry (hold.entry hu hne)] at hm
    cases hm
  · obtain ⟨w, hw⟩ := hs.get?_dir hu
    obtain ⟨q, hq, hl, -⟩ := (makeDirectory_madeFor hm).made d hd (by simp [hv])
    rw [List.mem_singleton.1 hq, hn.locate_directory hw hne] at hl
    rw [Except.ok.inj hl, hd] at hu
    cases hu

/-- Directories that could be made were there, or the innermost was made at once, or those above it
were made first. -/
theorem makeDirectories_cases {above : List Path}
    (hm : h.makeDirectories (p :: above) = (.ok (), h')) :
    h' = h ∨ p.spelling.octets ≠ [] ∧ (h.makeDirectory p = .ok h' ∨
      ∃ mid, h.makeDirectories above = (.ok (), mid) ∧
        (mid.makeDirectory p = .ok h' ∨ h' = mid)) := by
  rw [makeDirectories] at hm
  split at hm
  · exact .inl (Prod.mk.inj hm).2.symm
  · next hne =>
    split at hm
    · next made hmade =>
      obtain rfl := (Prod.mk.inj hm).2
      exact .inr ⟨hne, .inl hmade⟩
    · split at hm
      · cases (Prod.mk.inj hm).1
      · next mid habove =>
        refine .inr ⟨hne, .inr ⟨mid, habove, ?_⟩⟩
        split at hm
        · next made hmade =>
          obtain rfl := (Prod.mk.inj hm).2
          exact .inl hmade
        · exact .inr (Prod.mk.inj hm).2.symm
    · exact .inl (Prod.mk.inj hm).2.symm

/-- Nothing was made for a path that leads to a directory from before, when nothing was made above
it. -/
theorem makeDirectories_eq_self_of_above {above : List Path} {u : Tree}
    (hm : h.makeDirectories (p :: above) = (.ok (), h')) (hn : h'.NamesAt p place)
    (hu : h.tree.get? place = some (.dir u))
    (habove : ∀ mid, h.makeDirectories above = (.ok (), mid) → mid.NamesAt p place → mid = h) :
    h' = h := by
  rcases makeDirectories_cases hm with hsame | ⟨hne, hmade | ⟨mid, hmid, hmade | rfl⟩⟩
  · exact hsame
  · exact absurd hu (not_dir_of_makeDirectory hmade hne hn u)
  · have hgrows := makeDirectories_madeFor h above
    rw [hmid] at hgrows
    obtain ⟨v, hv⟩ := Tree.outline?_eq_dir_iff.1
      (hgrows.kept _ _ (Tree.outline?_eq_dir_iff.2 ⟨u, hu⟩))
    exact absurd hv (not_dir_of_makeDirectory hmade hne hn v)
  · exact habove _ hmid hn

/-- **Nothing was made where a path without a `..` leads to a directory from before.** -/
theorem makeDirectories_eq_self (hclimbs : ¬ p.Climbs) (k : Nat)
    (hm : h.makeDirectories (p.ancestorsUpTo k) = (.ok (), h')) (hn : h'.NamesAt p place)
    (hdir : ∃ u, h.tree.get? place = some (.dir u)) : h' = h := by
  obtain ⟨u, hu⟩ := hdir
  have hnothing : ∀ mid, h.makeDirectories [] = (.ok (), mid) → mid = h :=
    fun mid hmid => (Prod.mk.inj hmid).2.symm
  induction k generalizing p place u h' with
  | zero => exact makeDirectories_eq_self_of_above hm hn hu fun mid hmid _ => hnothing mid hmid
  | succ k ih =>
    refine makeDirectories_eq_self_of_above hm hn hu fun mid habove hmidn => ?_
    rcases hq : p.parent? with _ | q
    · rw [hq] at habove
      exact hnothing mid habove
    · rw [hq, Option.elim_some] at habove
      obtain ⟨above, hlist⟩ := exists_ancestorsUpTo k q
      by_cases hempty : q.spelling.octets = []
      · rw [hlist, makeDirectories_of_directory above (u := u) (.inl hempty)] at habove
        exact (Prod.mk.inj habove).2.symm
      · -- what the path ends in was there before, so the directory above was, too
        have hmade := makeDirectories_madeFor h (q.ancestorsUpTo k)
        rw [habove] at hmade
        obtain ⟨front, n, hfront, hends⟩ := exists_namesAt_of_parent? hmidn hq hempty hclimbs
        have hold : ∃ e, h.tree.get? (front ++ [n]) = some e := by
          rcases hends with ⟨-, rfl⟩ | ⟨k, g, hg⟩
          · exact ⟨_, hu⟩
          · exact ⟨_, hmade.get?_of_made (by simp) hg⟩
        obtain ⟨e, he⟩ := hold
        obtain ⟨v, hv⟩ := Tree.exists_dir_of_get?_append he (by simp)
        exact ih (not_climbs_of_parent? hq hempty hclimbs) habove hfront v hv

theorem makePath_eq_self (hclimbs : ¬ p.Climbs) (hm : h.makePath p = (.ok (), h'))
    (hn : h'.NamesAt p place) (hdir : ∃ u, h.tree.get? place = some (.dir u)) : h' = h :=
  makeDirectories_eq_self hclimbs p.spelling.octets.length hm hn hdir

end Host

end CommitGate

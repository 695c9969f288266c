import CommitGate.Proofs.Toml.Meaning
import Mathlib.Data.List.Induction

/-!
# Documents that say the same

Keys below one header may come in any order, and so may tables. A header may be written with points
in front of the keys. And what stands at certain addresses may be left out: the rest of the document
keeps its addresses when everything below these addresses is left out with them, and an array of
tables with all of its items.

Results:

* `tell_perm_of_pairs`, `tell_perm_of_tables`, `tell_perm_of_item`: keys below one header may come
  in any order, and so may tables; a table may also be moved over an item of another array.
* `said_dotted_iff`: a header with its keys says what the keys with points say.
* `tell_leaveOut`: what is left out is missing, and nothing else changes.
* `mem_tell_header`: where something was put into an item, its header was told.
-/

namespace CommitGate.Toml

/-! ## The way to an address -/

section Place

variable {opened opened' : List Address} {opens : Bool} {path path' : List String}
  {base b : Address}

theorem prefix_enter (opened : List Address) (a : Address) : a <+: enter opened a := by
  unfold enter
  split
  · exact List.prefix_rfl
  · exact List.prefix_append _ _

theorem exists_place_eq (opened : List Address) (opens : Bool) (base : Address) (k : String)
    (path : List String) : ∃ g, place opened opens base (k :: path) = base ++ .key k :: g := by
  induction path generalizing base k with
  | nil =>
    cases opens with
    | false => exact ⟨[], rfl⟩
    | true => exact ⟨_, List.append_assoc base [.key k] _⟩
  | cons k' path ih =>
    obtain ⟨g, hg⟩ := ih (enter opened (base ++ [.key k])) k'
    rw [place_cons (List.cons_ne_nil _ _), hg]
    obtain ⟨items, hitems⟩ := prefix_enter opened (base ++ [.key k])
    rw [← hitems]
    exact ⟨items ++ .key k' :: g, by simp⟩

theorem place_ne_nil (hpath : path ≠ []) : place opened opens base path ≠ [] := by
  obtain ⟨k, rest, rfl⟩ := List.exists_cons_of_ne_nil hpath
  obtain ⟨g, hg⟩ := exists_place_eq opened opens base k rest
  rw [hg]
  exact List.append_ne_nil_of_right_ne_nil _ (List.cons_ne_nil _ _)

theorem prefix_place (opened : List Address) (opens : Bool) (base : Address) (path : List String) :
    base <+: place opened opens base path := by
  cases path with
  | nil => exact List.prefix_rfl
  | cons k path =>
    obtain ⟨g, hg⟩ := exists_place_eq opened opens base k path
    rw [hg]
    exact List.prefix_append _ _

theorem place_append (hpath : path ≠ []) (hpath' : path' ≠ []) (base : Address) :
    place opened opens base (path ++ path') =
      place opened opens (enter opened (place opened false base path)) path' := by
  induction path generalizing base with
  | nil => exact absurd rfl hpath
  | cons k path ih =>
    by_cases hnil : path = []
    · subst hnil
      rw [List.cons_append, List.nil_append, place_cons hpath']
      rfl
    · rw [List.cons_append, place_cons (by simp [hnil]), place_cons hnil, ih hnil]

/-- The address of a key stands below the address of its table. -/
theorem prefix_place_append (opened : List Address) (hpath : path ≠ []) (hpath' : path' ≠ []) :
    place opened false base path <+: place opened opens base (path ++ path') := by
  rw [place_append hpath hpath']
  exact (prefix_enter opened _).trans (prefix_place opened opens _ path')

/-- The address of one more item is the next one of its array. -/
theorem place_item (hpath : path ≠ []) (base : Address) :
    place opened true base path = place opened false base path ++
      [.item (opened.count (place opened false base path))] := by
  induction path generalizing base with
  | nil => exact absurd rfl hpath
  | cons k path ih =>
    by_cases hnil : path = []
    · subst hnil
      rfl
    · rw [place_cons hnil, place_cons hnil, ih hnil]

/-- An address depends on the items of the arrays on the way only. -/
theorem place_congr
    (h : ∀ b, b <+: place opened opens base path → b ≠ place opened opens base path →
      opened.count b = opened'.count b) :
    place opened' opens base path = place opened opens base path := by
  induction path generalizing base with
  | nil => rfl
  | cons k path ih =>
    by_cases hnil : path = []
    · subst hnil
      cases opens with
      | false => rfl
      | true =>
        have hcount := h (base ++ [.key k]) (List.prefix_append _ _) (by simp [place])
        show base ++ [.key k] ++ [.item (opened'.count (base ++ [.key k]))] =
          base ++ [.key k] ++ [.item (opened.count (base ++ [.key k]))]
        rw [hcount]
    · rw [place_cons hnil] at h
      rw [place_cons hnil, place_cons hnil]
      have hne : base ++ [.key k] ≠ place opened opens (enter opened (base ++ [.key k])) path := by
        intro heq
        obtain ⟨k', rest, rfl⟩ := List.exists_cons_of_ne_nil hnil
        obtain ⟨g, hg⟩ := exists_place_eq opened opens (enter opened (base ++ [.key k])) k' rest
        have hle := (prefix_enter opened (base ++ [.key k])).length_le
        have hlength := congrArg List.length (heq.trans hg)
        simp only [List.length_append, List.length_cons, List.length_nil] at hle hlength
        omega
      have hcount := h (base ++ [.key k])
        ((prefix_enter opened _).trans (prefix_place opened opens _ path)) hne
      have hnext : enter opened' (base ++ [.key k]) = enter opened (base ++ [.key k]) := by
        unfold enter
        rw [hcount]
      rw [hnext]
      exact ih h

/-- An array with another name has no say in an address. -/
theorem place_cons_opened {k k' : String} (hk : k ≠ k') (f : Address) (opens : Bool)
    (path : List String) :
    place ((.key k :: f) :: opened) opens [] (k' :: path) = place opened opens [] (k' :: path) := by
  refine place_congr fun b hprefix _ => (List.count_cons_of_ne ?_).symm
  rintro rfl
  obtain ⟨g, hg⟩ := exists_place_eq opened opens [] k' path
  rw [hg, List.nil_append, List.cons_prefix_cons] at hprefix
  exact hk (Edge.key.inj hprefix.1)

/-- A path goes only through items that were opened. -/
theorem lt_count_of_place {n : Nat} {rest : Address}
    (h : place opened false base path = b ++ .item n :: rest) :
    n < opened.count b ∨ b ++ [.item n] <+: base := by
  have hkey {x : Address} {k : String} (hx : b ++ [.item n] <+: x ++ [.key k]) :
      b ++ [.item n] <+: x := by
    rcases List.prefix_concat_iff.1 hx with heq | hprefix
    · cases List.append_inj_right' heq rfl
    · exact hprefix
  have hrest : b ++ [.item n] <+: place opened false base path := by
    rw [h]
    exact ⟨rest, by simp⟩
  clear h
  induction path generalizing base with
  | nil => exact .inr hrest
  | cons k path ih =>
    by_cases hnil : path = []
    · subst hnil
      exact .inr (hkey hrest)
    · rw [place_cons hnil] at hrest
      refine (ih hrest).elim .inl fun hprefix => ?_
      unfold enter at hprefix
      split at hprefix
      · exact .inr (hkey hprefix)
      · next m hcount =>
        rcases List.prefix_concat_iff.1 hprefix with heq | hprefix
        · obtain ⟨rfl, hitem⟩ := List.append_inj' heq rfl
          cases hitem
          exact .inl (by omega)
        · exact .inr (hkey hprefix)

end Place

/-! ## Orders -/

namespace Context

variable {sts : List Statement}

theorem tell_append (c : Context) (sts sts' : List Statement) :
    c.tell (sts ++ sts') = c.tell sts ++ (sts.foldl after c).tell sts' := by
  induction sts generalizing c with
  | nil => rfl
  | cons st sts ih =>
    rw [List.cons_append, tell, ih, tell]
    rfl

/-- A key with its value, as a statement. -/
def keyed (p : List String × Value) : Statement :=
  .pair p.1 p.2

theorem foldl_after_pairs (c : Context) (ps : List (List String × Value)) :
    (ps.map keyed).foldl after c = c := by
  induction ps with
  | nil => rfl
  | cons p ps ih => exact ih

/-- The keys below one header are told one by one. -/
theorem tell_pairs (c : Context) (ps : List (List String × Value)) :
    c.tell (ps.map keyed) = ps.map fun p => (c.address (keyed p), p.2) := by
  induction ps with
  | nil => rfl
  | cons p ps ih =>
    rw [List.map_cons, List.map_cons, tell]
    exact congrArg (_ :: ·) ih

/-- **The keys below one header may come in any order.** -/
theorem tell_perm_of_pairs (c : Context) {ps ps' : List (List String × Value)} (h : ps.Perm ps')
    (sts : List Statement) :
    (c.tell (ps.map keyed ++ sts)).Perm (c.tell (ps'.map keyed ++ sts)) := by
  rw [tell_append, tell_append, foldl_after_pairs, foldl_after_pairs, tell_pairs, tell_pairs]
  exact (h.map _).append_right _

/-- A header with the keys below it, as statements. -/
def block (t : List String × List (List String × Value)) : List Statement :=
  .table t.1 :: t.2.map keyed

/-- The header of one more item with the keys below it, as statements. -/
def itemBlock (t : List String × List (List String × Value)) : List Statement :=
  .item t.1 :: t.2.map keyed

/-- The statements do not start with a key, so that it does not matter below which header they
stand. -/
def Headed (sts : List Statement) : Prop :=
  ∀ path v rest, sts ≠ .pair path v :: rest

theorem tell_of_header (h : Headed sts) (opened : List Address) (current current' : List String) :
    (Context.mk opened current).tell sts = (Context.mk opened current').tell sts := by
  cases sts with
  | nil => rfl
  | cons st sts =>
    cases st with
    | pair path v => exact absurd rfl (h path v sts)
    | table path => rfl
    | item path => rfl

theorem foldl_after_block (c : Context) (t : List String × List (List String × Value)) :
    (block t).foldl after c = ⟨c.opened, t.1⟩ :=
  foldl_after_pairs ⟨c.opened, t.1⟩ t.2

theorem opened_foldl_blocks (c : Context) (ts : List (List String × List (List String × Value))) :
    ((ts.flatMap block).foldl after c).opened = c.opened := by
  induction ts generalizing c with
  | nil => rfl
  | cons t ts ih =>
    rw [List.flatMap_cons, List.foldl_append, foldl_after_block, ih]

/-- What tables with their keys tell does not depend on the header before them. -/
theorem tell_blocks (c : Context) (ts : List (List String × List (List String × Value))) :
    c.tell (ts.flatMap block) = ts.flatMap fun t => (Context.mk c.opened []).tell (block t) := by
  induction ts generalizing c with
  | nil => rfl
  | cons t ts ih =>
    rw [List.flatMap_cons, List.flatMap_cons, tell_append, foldl_after_block, ih]
    rfl

/-- **Tables with their keys may come in any order.** -/
theorem tell_perm_of_tables (c : Context) {ts ts' : List (List String × List (List String × Value))}
    (h : ts.Perm ts') (hsts : Headed sts) :
    (c.tell (ts.flatMap block ++ sts)).Perm (c.tell (ts'.flatMap block ++ sts)) := by
  have hrest : ((ts.flatMap block).foldl after c).tell sts =
      ((ts'.flatMap block).foldl after c).tell sts := by
    have hopened := (opened_foldl_blocks c ts).trans (opened_foldl_blocks c ts').symm
    generalize (ts.flatMap block).foldl after c = x at hopened ⊢
    generalize (ts'.flatMap block).foldl after c = y at hopened ⊢
    cases x
    cases y
    cases hopened
    exact tell_of_header hsts _ _ _
  rw [tell_append, tell_append, tell_blocks, tell_blocks, hrest]
  exact (h.flatMap_right _).append_right _

/-- A table has the same addresses after an item of an array with another name. -/
theorem tell_block_opened (opened : List Address) {k k' : String} (hk : k ≠ k') (f : Address)
    (current current' path : List String) (ps : List (List String × Value)) :
    (Context.mk ((.key k :: f) :: opened) current).tell (block (k' :: path, ps)) =
      (Context.mk opened current').tell (block (k' :: path, ps)) := by
  have hkeys : (Context.mk ((.key k :: f) :: opened) (k' :: path)).tell (ps.map keyed) =
      (Context.mk opened (k' :: path)).tell (ps.map keyed) := by
    rw [tell_pairs, tell_pairs]
    refine List.map_congr_left fun p _ => ?_
    exact congrArg (·, p.2) (place_cons_opened hk f false (path ++ p.1))
  exact congrArg₂ (fun a rest => (a, Value.table .header []) :: rest)
    (place_cons_opened hk f false path) hkeys

/-- **A table may be moved over an item of an array with another name.** -/
theorem tell_perm_of_item (c : Context) {k k' : String} (hk : k ≠ k') (path path' : List String)
    (ps ps' : List (List String × Value)) (hsts : Headed sts) :
    (c.tell (itemBlock (k :: path, ps) ++ (block (k' :: path', ps') ++ sts))).Perm
      (c.tell (block (k' :: path', ps') ++ (itemBlock (k :: path, ps) ++ sts))) := by
  obtain ⟨f, hf⟩ : ∃ f, (c.address (.item (k :: path))).dropLast = .key k :: f := by
    show ∃ f, (place c.opened true [] (k :: path)).dropLast = .key k :: f
    rw [place_item (List.cons_ne_nil _ _), List.dropLast_concat]
    exact exists_place_eq c.opened false [] k path
  let item : Context := ⟨(.key k :: f) :: c.opened, k :: path⟩
  have hitem (current : List String) :
      (itemBlock (k :: path, ps)).foldl after ⟨c.opened, current⟩ = item := by
    have hafter : (Context.mk c.opened current).after (.item (k :: path)) = item :=
      congrArg (fun a => Context.mk (a :: c.opened) (k :: path)) hf
    show (ps.map keyed).foldl after ((Context.mk c.opened current).after (.item (k :: path))) = item
    rw [foldl_after_pairs, hafter]
  have hfirst : c.tell (itemBlock (k :: path, ps) ++ (block (k' :: path', ps') ++ sts)) =
      c.tell (itemBlock (k :: path, ps)) ++
        (c.tell (block (k' :: path', ps')) ++ item.tell sts) := by
    rw [tell_append, tell_append, hitem c.current, foldl_after_block,
      tell_block_opened c.opened hk f (k :: path) c.current, tell_of_header hsts _ _ (k :: path)]
  have hsecond : c.tell (block (k' :: path', ps') ++ (itemBlock (k :: path, ps) ++ sts)) =
      c.tell (block (k' :: path', ps')) ++
        (c.tell (itemBlock (k :: path, ps)) ++ item.tell sts) := by
    rw [tell_append, tell_append, foldl_after_block, hitem]
    rfl
  rw [hfirst, hsecond, ← List.append_assoc, ← List.append_assoc]
  exact List.perm_append_comm.append_right _

end Context

/-! ## Points -/

/-- A value below a table gives the table to see. -/
theorem Entries.puts_below {v : Value} {f a : Address} {s : Shape} {k : String} {g : Address}
    (h : Puts (.table .header []) f a s) : Puts v (f ++ .key k :: g) a s := by
  induction f generalizing a with
  | nil =>
    obtain ⟨rfl, rfl⟩ := seen_empty_iff.1 h
    rfl
  | cons e f ih =>
    cases a with
    | nil => exact h
    | cons e' a => exact ⟨h.1, ih h.2⟩

/-- What a value gives to see depends on what can be seen of it. -/
theorem Entries.puts_congr {v v' : Value} {f a : Address} {s : Shape}
    (h : ∀ b, a = f ++ b → v.seen b = v'.seen b) :
    Puts v f a s ↔ Puts v' f a s := by
  induction f generalizing a with
  | nil =>
    show v.seen a = some s ↔ v'.seen a = some s
    rw [h a rfl]
  | cons e f ih =>
    cases a with
    | nil => exact Iff.rfl
    | cons e' a =>
      refine and_congr_right fun he => ih fun b hb => h b ?_
      rw [he, hb, List.cons_append]

theorem said_append (told told' : List (Address × Value)) (a : Address) (s : Shape) :
    Said (told ++ told') a s ↔ Said told a s ∨ Said told' a s := by
  unfold Said
  simp only [List.mem_append, or_and_right, exists_or]
  exact or_or_distrib_left

/-- The keys below a header, written with points. -/
def dotted (path : List String) (ps : List (List String × Value)) : List (List String × Value) :=
  ps.map fun p => (path ++ p.1, p.2)

section Points

variable {c : Context} {path : List String} (hpath : path ≠ [])
  (htable : c.opened.count (c.address (.table (c.current ++ path))) = 0)

include hpath htable in
/-- The key below a header has the address of the key with points. -/
theorem address_dotted {key : List String} (v : Value) (hkey : key ≠ []) :
    (c.after (.table (c.current ++ path))).address (.pair key v) =
        c.address (.pair (path ++ key) v) ∧
      ∃ k g, c.address (.pair (path ++ key) v) =
        c.address (.table (c.current ++ path)) ++ .key k :: g := by
  have hheader : c.current ++ path ≠ [] := List.append_ne_nil_of_right_ne_nil _ hpath
  have henter : enter c.opened (c.address (.table (c.current ++ path))) =
      c.address (.table (c.current ++ path)) := by
    rw [enter, htable]
  have hplace : c.address (.pair (path ++ key) v) =
      place c.opened false (c.address (.table (c.current ++ path))) key := by
    show place c.opened false [] (c.current ++ (path ++ key)) = _
    rw [← List.append_assoc, place_append hheader hkey]
    exact congrArg (place c.opened false · key) henter
  constructor
  · show place c.opened false [] (c.current ++ path ++ key) =
      place c.opened false [] (c.current ++ (path ++ key))
    rw [List.append_assoc]
  · obtain ⟨k, rest, rfl⟩ := List.exists_cons_of_ne_nil hkey
    obtain ⟨g, hg⟩ :=
      exists_place_eq c.opened false (c.address (.table (c.current ++ path))) k rest
    exact ⟨k, g, hplace.trans hg⟩

include hpath htable in
/-- **A header with its keys says what the keys with points say**, where the header is not the name
of an array of tables. -/
theorem said_dotted_iff {ps : List (List String × Value)} (hps : ps ≠ [])
    (hkeys : ∀ p ∈ ps, p.1 ≠ []) (a : Address) (s : Shape) :
    Said (c.tell (Context.block (c.current ++ path, ps))) a s ↔
      Said (c.tell ((dotted path ps).map Context.keyed)) a s := by
  have htold : (c.after (.table (c.current ++ path))).tell (ps.map Context.keyed) =
      c.tell ((dotted path ps).map Context.keyed) := by
    rw [Context.tell_pairs, Context.tell_pairs, dotted, List.map_map]
    refine List.map_congr_left fun p hp => ?_
    exact congrArg (·, p.2) (address_dotted hpath htable p.2 (hkeys p hp)).1
  have hblock : c.tell (Context.block (c.current ++ path, ps)) =
      [(c.address (.table (c.current ++ path)), .table .header [])] ++
        c.tell ((dotted path ps).map Context.keyed) := by
    rw [← htold]
    rfl
  rw [hblock, said_append, or_iff_right_iff_imp]
  rintro (hroot | ⟨p, hp, hputs⟩)
  · exact .inl hroot
  · rw [List.mem_singleton.1 hp] at hputs
    obtain ⟨p, ps, rfl⟩ := List.exists_cons_of_ne_nil hps
    obtain ⟨-, k, g, hg⟩ := address_dotted hpath htable p.2 (hkeys p List.mem_cons_self)
    refine .inr ⟨(c.address (Context.keyed (path ++ p.1, p.2)), p.2), List.mem_cons_self, ?_⟩
    show Entries.Puts p.2 (c.address (.pair (path ++ p.1) p.2)) a s
    rw [hg]
    exact Entries.puts_below hputs

end Points

/-! ## Leaving out -/

/-- What stands below an address that is ignored is ignored as well, and so is an array of tables
when an item of it is. -/
structure Closed (ignored : Address → Bool) : Prop where
  below : ∀ a b, ignored a = true → ignored (a ++ b) = true
  array : ∀ a i, a ≠ [] → ignored (a ++ [.item i]) = true → ignored a = true

theorem Closed.of_prefix {ignored : Address → Bool} (closed : Closed ignored) {a b : Address}
    (h : a <+: b) (ha : ignored a = true) : ignored b = true := by
  obtain ⟨f, rfl⟩ := h
  exact closed.below a f ha

namespace Context

variable {ignored : Address → Bool} {c c' : Context} {st : Statement} {sts : List Statement}

/-- The statements without those whose address is ignored. -/
def leaveOut (ignored : Address → Bool) (c : Context) : List Statement → List Statement
  | [] => []
  | st :: sts =>
    if ignored (c.address st) then leaveOut ignored (c.after st) sts
    else st :: leaveOut ignored (c.after st) sts

/-- What was said before a statement, with and without what is ignored: the other arrays have the
same items, and the header is the same unless everything below it is ignored. -/
structure Matches (ignored : Address → Bool) (c c' : Context) : Prop where
  opened : ∀ a, ignored a = false → c.opened.count a = c'.opened.count a
  current : c.current = c'.current ∨
    ∀ path v, path ≠ [] → ignored (c.address (.pair path v)) = true

theorem Matches.leave (closed : Closed ignored) (hpath : st.path ≠ [])
    (h : Matches ignored c c') (hst : ignored (c.address st) = true) :
    Matches ignored (c.after st) c' := by
  cases st with
  | pair path v => exact h
  | table path =>
    refine ⟨h.opened, .inr fun key v hkey => ?_⟩
    exact closed.of_prefix (prefix_place_append c.opened hpath hkey) hst
  | item path =>
    have hpath : path ≠ [] := hpath
    have haddress : c.address (.item path) = _ := place_item hpath []
    have harray : ignored (place c.opened false [] path) = true := by
      rw [haddress] at hst
      exact closed.array _ _ (place_ne_nil hpath) hst
    have hafter : c.after (.item path) = ⟨place c.opened false [] path :: c.opened, path⟩ := by
      unfold after
      rw [haddress, List.dropLast_concat]
      rfl
    rw [hafter]
    have hother {a : Address} (ha : a ≠ place c.opened false [] path) :
        c.opened.count a = (place c.opened false [] path :: c.opened).count a :=
      (List.count_cons_of_ne ha.symm).symm
    refine ⟨fun a ha => ?_, .inr fun key v hkey => ?_⟩
    · rw [← hother, h.opened a ha]
      rintro rfl
      rw [harray] at ha
      cases ha
    · refine closed.of_prefix (prefix_place_append _ hpath hkey) ?_
      show ignored (place _ false [] path) = true
      rwa [place_congr fun b _ hb => hother hb]

theorem Matches.keep (closed : Closed ignored) (hpath : st.path ≠ [])
    (h : Matches ignored c c') (hst : ignored (c.address st) = false) :
    c'.address st = c.address st ∧ Matches ignored (c.after st) (c'.after st) := by
  have hcurrent : st.pathFrom c'.current = st.pathFrom c.current ∧
      st.currentAfter c.current = st.currentAfter c'.current := by
    cases st with
    | pair path v =>
      rcases h.current with heq | hignored
      · exact ⟨congrArg (· ++ path) heq.symm, heq⟩
      · rw [hignored path v hpath] at hst
        cases hst
    | table path => exact ⟨rfl, rfl⟩
    | item path => exact ⟨rfl, rfl⟩
  have haddress : c'.address st = c.address st := by
    unfold address at hst ⊢
    rw [hcurrent.1]
    refine place_congr fun b hprefix _ => h.opened b ?_
    by_contra hb
    rw [closed.of_prefix hprefix (by simpa using hb)] at hst
    cases hst
  refine ⟨haddress, fun a ha => ?_, .inl hcurrent.2⟩
  unfold after
  rw [haddress]
  cases st.opens with
  | false => exact h.opened a ha
  | true =>
    rw [if_pos rfl, if_pos rfl, List.count_cons, List.count_cons, h.opened a ha]

/-- **What is left out is missing, and nothing else changes.** -/
theorem tell_leaveOut (closed : Closed ignored) (hpath : ∀ st ∈ sts, st.path ≠ [])
    (h : Matches ignored c c') :
    c'.tell (c.leaveOut ignored sts) = (c.tell sts).filter fun p => !ignored p.1 := by
  induction sts generalizing c c' with
  | nil => rfl
  | cons st sts ih =>
    obtain ⟨hst, hsts⟩ := List.forall_mem_cons.1 hpath
    rw [leaveOut, tell]
    cases hignored : ignored (c.address st) with
    | true =>
      rw [if_pos rfl, List.filter_cons_of_neg (by simp [hignored])]
      exact ih hsts (h.leave closed hst hignored)
    | false =>
      obtain ⟨haddress, hafter⟩ := h.keep closed hst hignored
      rw [if_neg Bool.false_ne_true, List.filter_cons_of_pos (by simp [hignored]), tell, haddress,
        ih hsts hafter]

/-! ## Items and their headers -/

theorem exists_of_mem_tell {p : Address × Value} (h : p ∈ c.tell sts) :
    ∃ before st rest, sts = before ++ st :: rest ∧ p.1 = (before.foldl after c).address st := by
  induction sts generalizing c with
  | nil => cases h
  | cons st sts ih =>
    rcases List.mem_cons.1 h with rfl | h
    · exact ⟨[], st, sts, rfl, rfl⟩
    · obtain ⟨before, st', rest, rfl, hp⟩ := ih h
      exact ⟨st :: before, st', rest, rfl, hp⟩

/-- Every item that was opened has been told by its header. -/
theorem mem_tell_of_opened (hpath : ∀ st ∈ sts, st.path ≠ []) {b : Address} {n : Nat}
    (h : n < (sts.foldl after start).opened.count b) :
    (b ++ [.item n], .table .header []) ∈ start.tell sts := by
  induction sts using List.reverseRecOn generalizing b n with
  | nil => cases h
  | append_singleton sts st ih =>
    have hbefore : ∀ st ∈ sts, st.path ≠ [] := fun st' hst' =>
      hpath st' (List.mem_append_left _ hst')
    rw [tell_append]
    rw [List.foldl_append, List.foldl_cons, List.foldl_nil] at h
    have hold (h' : n < (sts.foldl after start).opened.count b) :
        (b ++ [.item n], .table .header []) ∈
          start.tell sts ++ (sts.foldl after start).tell [st] :=
      List.mem_append_left _ (ih hbefore h')
    cases st with
    | pair path v => exact hold h
    | table path => exact hold h
    | item path =>
      have hne : path ≠ [] := hpath (.item path) (by simp)
      have haddress : (sts.foldl after start).address (.item path) = _ :=
        place_item hne []
      generalize place (sts.foldl after start).opened false [] path = array at haddress
      have hopened : ((sts.foldl after start).after (.item path)).opened =
          array :: (sts.foldl after start).opened := by
        show ((sts.foldl after start).address (.item path)).dropLast :: _ = _
        rw [haddress, List.dropLast_concat]
      rw [hopened, List.count_cons] at h
      by_cases hb : array = b
      · subst hb
        simp only [beq_self_eq_true, if_true] at h
        rcases Nat.lt_or_eq_of_le (Nat.lt_succ_iff.1 h) with hlt | rfl
        · exact hold hlt
        · refine List.mem_append_right _ ?_
          rw [← haddress]
          exact List.mem_cons_self
      · simp only [beq_eq_false_iff_ne.2 hb, Bool.false_eq_true, if_false, Nat.add_zero] at h
        exact hold h

/-- **Where something was put into an item, the header of the item was told.** -/
theorem mem_tell_header (hpath : ∀ st ∈ sts, st.path ≠ []) {p : Address × Value}
    (hp : p ∈ start.tell sts) {b rest : Address} {n : Nat} (h : p.1 = b ++ .item n :: rest)
    (hrest : rest ≠ []) : (b ++ [.item n], .table .header []) ∈ start.tell sts := by
  obtain ⟨before, st, after', rfl, haddress⟩ := exists_of_mem_tell hp
  have hbefore : ∀ st ∈ before, st.path ≠ [] := fun st' hst' =>
    hpath st' (List.mem_append_left _ hst')
  obtain ⟨rest', hplace⟩ : ∃ rest', place (before.foldl after start).opened false []
      (st.pathFrom (before.foldl after start).current) = b ++ .item n :: rest' := by
    rw [haddress] at h
    unfold address at h
    cases hopens : st.opens with
    | false =>
      rw [hopens] at h
      exact ⟨rest, h⟩
    | true =>
      have hst : st.pathFrom (before.foldl after start).current ≠ [] := by
        have hpath' := hpath st (by simp)
        cases st with
        | pair path v => cases hopens
        | table path => cases hopens
        | item path => exact hpath'
      rw [hopens, place_item hst] at h
      obtain ⟨rest', e, rfl⟩ := (List.eq_nil_or_concat rest).resolve_left hrest
      rw [List.concat_eq_append, ← List.cons_append, ← List.append_assoc] at h
      exact ⟨rest', List.append_inj_left' h rfl⟩
  have hlt := (lt_count_of_place hplace).resolve_right fun hprefix => by simp at hprefix
  rw [tell_append]
  exact List.mem_append_left _ (mem_tell_of_opened hbefore hlt)

end Context

end CommitGate.Toml

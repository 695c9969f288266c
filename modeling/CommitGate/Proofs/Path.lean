import CommitGate.Path
import CommitGate.Proofs.Pieces
import Mathlib.Data.List.Basic

/-!
# Components of joined paths

Joining an entry's name to a path adds one component, whatever the spelling of the path: with a
slash at the end or without, relative or absolute, empty or not.

Results:

* `components_below`: going down some names adds just these names.
* `order_eq_eq_iff`: two paths are equal in the order exactly when their components are.
-/

namespace CommitGate

/-- A name that an entry of a directory may have. -/
def IsName (s : RawText) : Prop :=
  s.octets ≠ [] ∧ s.octets ≠ [Path.point] ∧ s.octets ≠ [Path.point, Path.point] ∧
    Path.slash ∉ s.octets ∧ 0 ∉ s.octets

instance (s : RawText) : Decidable (IsName s) :=
  inferInstanceAs (Decidable (_ ∧ _))

open Text (Octets)

namespace Path

/-- The path that some names lead to, one after the other, from the directory `p`. -/
def below (p : Path) (names : List RawText) : Path :=
  names.foldl child p

theorem below_nil (p : Path) : p.below [] = p := rfl

theorem below_cons (p : Path) (n : RawText) (names : List RawText) :
    p.below (n :: names) = (p.child n).below names := rfl

/-! ## Pieces -/

theorem slashPieces_ne_nil (s : Octets) : slashPieces s ≠ [] :=
  Text.splitFrom_ne_nil _ _ _

theorem slashPieces_slash (s : Octets) : slashPieces (slash :: s) = [] :: slashPieces s := by
  simp [slashPieces, Text.splitOn, Text.splitFrom, List.isPrefixOf]

theorem slashPieces_cons {c : UInt8} (h : c ≠ slash) (s : Octets) :
    slashPieces (c :: s) = Text.extendFirst c (slashPieces s) := by
  have hp : [slash].isPrefixOf (c :: s) = false := by
    simp [List.isPrefixOf, h.symm]
  simp [slashPieces, Text.splitOn, Text.splitFrom, hp]

/-- Pieces without slashes are the pieces of the text that joins them. -/
theorem slashPieces_intercalate {pieces : List Octets} (hne : pieces ≠ [])
    (h : ∀ piece ∈ pieces, slash ∉ piece) : slashPieces ([slash].intercalate pieces) = pieces :=
  Text.splitOn_singleton_iff.2 ⟨hne, h, rfl⟩

theorem slashPieces_of_not_mem {s : Octets} (h : slash ∉ s) : slashPieces s = [s] := by
  have hone : ∀ piece ∈ [s], slash ∉ piece := List.forall_mem_singleton.2 h
  have hpieces := slashPieces_intercalate (List.cons_ne_nil s []) hone
  rwa [List.intercalate_singleton] at hpieces

/-- A slash ends a piece, so what stands before and after it is cut apart. -/
theorem slashPieces_append_slash (s t : Octets) :
    slashPieces (s ++ slash :: t) = slashPieces s ++ slashPieces t := by
  induction s with
  | nil => exact slashPieces_slash t
  | cons c s ih =>
    by_cases h : c = slash
    · subst h
      rw [List.cons_append, slashPieces_slash, slashPieces_slash, ih, List.cons_append]
    · rw [List.cons_append, slashPieces_cons h, slashPieces_cons h, ih]
      cases hp : slashPieces s with
      | nil => exact absurd hp (slashPieces_ne_nil s)
      | cons p ps => rfl

/-! ## Joining a name -/

/-- A name is joined after a slash, which the path may have at its end already; only the empty path
takes none. -/
theorem spelling_child (p : Path) {n : RawText} (hn : IsName n) :
    p.spelling.octets = [] ∧ (p.child n).spelling.octets = n.octets ∨
      p.spelling.octets ≠ [] ∧ ∃ q, (p.child n).spelling.octets = q ++ slash :: n.octets ∧
        (p.spelling.octets = q ∨ p.spelling.octets = q ++ [slash]) := by
  have hrel : (⟨n⟩ : Path).isAbsolute = false := by
    simp only [isAbsolute, decide_eq_false_iff_not]
    intro h
    exact hn.2.2.2.1 (List.mem_of_mem_head? (by simp [h]))
  have hjoin : (p.child n).spelling.octets =
      if p.spelling.octets.getLast? = none ∨ p.spelling.octets.getLast? = some slash
      then p.spelling.octets ++ n.octets else p.spelling.octets ++ slash :: n.octets := by
    rw [child, join, hrel, if_neg Bool.false_ne_true]
    split <;> simp_all
  rw [hjoin]
  generalize p.spelling.octets = s
  by_cases h : s = []
  · left; simp [h]
  · right
    refine ⟨h, ?_⟩
    by_cases hl : s.getLast? = some slash
    · obtain ⟨q, rfl⟩ := List.getLast?_eq_some_iff.1 hl
      exact ⟨q, by simp, Or.inr rfl⟩
    · exact ⟨s, by simp [h, hl], Or.inl rfl⟩

/-- The pieces of a joined path that count are those of the path and then the name. -/
theorem filterMap_slashPieces_child {α : Type} {f : Octets → Option α} (hf : f [] = none)
    (p : Path) {n : RawText} (hn : IsName n) :
    (slashPieces (p.child n).spelling.octets).filterMap f =
      (slashPieces p.spelling.octets).filterMap f ++ (f n.octets).toList := by
  have hpiece : slashPieces n.octets = [n.octets] := slashPieces_of_not_mem hn.2.2.2.1
  have hnil : (slashPieces []).filterMap f = [] := by simp [slashPieces_of_not_mem, hf]
  have hlast : [n.octets].filterMap f = (f n.octets).toList := by
    cases h : f n.octets <;> simp [h]
  rcases spelling_child p hn with ⟨hp, hc⟩ | ⟨-, q, hc, hp | hp⟩
  · rw [hp, hc, hpiece, hnil, hlast, List.nil_append]
  · rw [hp, hc, slashPieces_append_slash, List.filterMap_append, hpiece, hlast]
  · rw [hp, hc, slashPieces_append_slash, slashPieces_append_slash, List.filterMap_append,
      List.filterMap_append, hpiece, hlast, hnil, List.append_nil]

theorem innerComponent?_name {n : RawText} (hn : IsName n) :
    innerComponent? n.octets = some (.name n) := by
  rw [innerComponent?, if_neg (not_or.2 ⟨hn.1, hn.2.1⟩), if_neg hn.2.2.1]

theorem head?_slashPieces_append_slash (s t : Octets) :
    (slashPieces (s ++ slash :: t)).head? = (slashPieces s).head? := by
  rw [slashPieces_append_slash, List.head?_append_of_ne_nil _ (slashPieces_ne_nil s)]

theorem components_child (p : Path) {n : RawText} (hn : IsName n) :
    (p.child n).components = p.components ++ [.name n] := by
  have hinner := filterMap_slashPieces_child (f := innerComponent?) rfl p hn
  rw [innerComponent?_name hn] at hinner
  have hdot : n.octets ≠ [point] := hn.2.1
  have hstart : n.octets.head? ≠ some slash :=
    fun h => hn.2.2.2.1 (List.mem_of_mem_head? (by simp [h]))
  unfold components componentsOf
  rw [hinner]
  -- the start of a spelling decides alone whether there is a root or a point in front
  rcases spelling_child p hn with ⟨hp, hc⟩ | ⟨hne, q, hc, hp | hp⟩
  · simp [hp, hc, hstart, slashPieces_of_not_mem hn.2.2.2.1, hdot, slashPieces_of_not_mem]
  · have hq : (q ++ slash :: n.octets).head? = q.head? := List.head?_append_of_ne_nil _ (hp ▸ hne)
    rw [hp, hc, head?_slashPieces_append_slash, hq]
    split
    · rfl
    · split <;> rfl
  · have hq : (q ++ slash :: n.octets).head? = (q ++ [slash]).head? := by cases q <;> rfl
    rw [hp, hc, head?_slashPieces_append_slash, head?_slashPieces_append_slash, hq]
    split
    · rfl
    · split <;> rfl

theorem components_below (p : Path) {names : List RawText} (hn : ∀ n ∈ names, IsName n) :
    (p.below names).components = p.components ++ names.map .name := by
  induction names generalizing p with
  | nil => simp [below_nil]
  | cons n names ih =>
    rw [below_cons, ih (p.child n) fun m hm => hn m (List.mem_cons_of_mem n hm),
      components_child p (hn n List.mem_cons_self)]
    simp

/-- Different names lead to different components. -/
theorem names_eq_of_components_below {p : Path} {ns ms : List RawText} (hn : ∀ n ∈ ns, IsName n)
    (hm : ∀ m ∈ ms, IsName m) (h : (p.below ns).components = (p.below ms).components) :
    ns = ms := by
  rw [components_below p hn, components_below p hm, List.append_cancel_left_eq] at h
  exact (List.map_inj_right fun _ _ e => Component.name.inj e).1 h

/-! ## The order -/

instance : Std.LawfulEqCmp Component.order where
  eq_of_compare {a b} h := by
    rw [Component.order, Ordering.then_eq_eq, Std.compare_eq_iff_eq, Std.compare_eq_iff_eq] at h
    cases a <;> cases b <;> simp_all [Component.rank, Component.label, RawText.ext_iff]
  compare_self {a} := by
    simp [Component.order]

instance : Std.TransCmp Component.order :=
  inferInstanceAs (Std.TransCmp (compareLex (compareOn Component.rank) (compareOn Component.label)))

theorem order_eq_eq_iff (p q : Path) : p.order q = .eq ↔ p.components = q.components := by
  rw [order, Std.LawfulEqCmp.compare_eq_iff_eq]

theorem order_trans {p q r : Path} (hpq : p.order q = .lt) (hqr : q.order r = .lt) :
    p.order r = .lt := by
  unfold order at hpq hqr ⊢
  exact Std.TransCmp.lt_trans hpq hqr

theorem order_lt_of_order_gt {p q : Path} (h : p.order q = .gt) : q.order p = .lt := by
  unfold order at h ⊢
  exact Std.OrientedCmp.lt_of_gt h

theorem order_gt_of_order_lt {p q : Path} (h : p.order q = .lt) : q.order p = .gt := by
  unfold order at h ⊢
  exact Std.OrientedCmp.gt_of_lt h

end Path

end CommitGate

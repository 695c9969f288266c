import CommitGate.Proofs.Path
import CommitGate.Proofs.Utf8

/-!
# The order of paths

Paths are compared component by component: the root comes first, then a `.` at the start, then `..`,
then the names, which are compared octet by octet. UTF-8 keeps the order of the code points, so two
names that are texts are in the order of their characters. A spelling has more than its components:
repeated slashes, slashes at the end and points between slashes count for nothing.

Results:

* `ofString_lt_ofString_iff`: names that are texts have the order of the texts.
* `order_eq_lt_iff`: the order is that of the lists of components.
* `componentsOf_append_slash`: a slash inside a spelling only separates what stands around it.
* `sameComponents_idle`: what does not count in a spelling.
-/

namespace CommitGate

namespace Text

/-! ## Texts and their octets -/

/-- The first octets decide where they are different, and else the rest does. -/
theorem cons_lt_cons_of_le {m n : Nat} {s t : Octets} (hm : m < 256) (hn : n < 256) (h : m ≤ n)
    (hrest : m = n → s < t) : m.toUInt8 :: s < n.toUInt8 :: t := by
  rw [List.cons_lt_cons_iff]
  rcases Nat.lt_or_eq_of_le h with hlt | heq
  · left
    rw [UInt8.lt_iff_toNat_lt, toNat_toUInt8 hm, toNat_toUInt8 hn]
    exact hlt
  · right
    exact ⟨congrArg _ heq, hrest heq⟩

/-- The octets of a character come before those of a later one, whatever follows them. -/
theorem encodeChar_append_lt {c d : Char} (h : c.toNat < d.toNat) (s t : Octets) :
    encodeChar c ++ s < encodeChar d ++ t := by
  have hd := toNat_valid d
  unfold encodeChar
  dsimp only
  generalize c.toNat = m at h ⊢
  generalize d.toNat = n at h hd ⊢
  -- a longer encoding has a greater first octet; two of one length have digits of `m` and `n`
  split_ifs
  all_goals
    repeat' refine cons_lt_cons_of_le (by omega) (by omega) (by omega) fun _ => ?_
    exfalso
    omega

theorem encode_lt_of_lt {s t : List Char} (h : s < t) : encode s < encode t := by
  induction h with
  | @nil d t =>
    obtain ⟨b, r, hd⟩ : ∃ b r, encodeChar d = b :: r := by
      unfold encodeChar
      dsimp only
      split_ifs <;> exact ⟨_, _, rfl⟩
    rw [encode_cons, hd]
    exact List.Lex.nil
  | @rel c s d t hcd =>
    rw [encode_cons, encode_cons]
    exact encodeChar_append_lt hcd _ _
  | @cons c s t hst ih =>
    rw [encode_cons, encode_cons]
    exact List.append_left_lt ih

/-- **Encoded texts have the order of the texts.** -/
theorem encode_lt_encode_iff {s t : List Char} : encode s < encode t ↔ s < t := by
  refine ⟨fun h => ?_, encode_lt_of_lt⟩
  by_contra hst
  by_cases hts : t < s
  · exact List.lt_asymm h (encode_lt_of_lt hts)
  · have heq : s = t := List.le_antisymm (List.not_lt.1 hts) (List.not_lt.1 hst)
    subst heq
    exact List.lt_irrefl (encode s) h

end Text

theorem RawText.ofString_lt_ofString_iff {s t : String} :
    RawText.ofString s < RawText.ofString t ↔ s < t :=
  Text.encode_lt_encode_iff

/-! ## Components in order -/

/-- Comparing lists element by element is the lexicographic order of their elements. -/
theorem compareLex_eq_lt_iff {α : Type} {cmp : α → α → Ordering} [Std.LawfulEqCmp cmp]
    {xs ys : List α} :
    List.compareLex cmp xs ys = .lt ↔ List.Lex (fun x y => cmp x y = .lt) xs ys := by
  induction xs generalizing ys with
  | nil =>
    cases ys with
    | nil => simp [List.compareLex]
    | cons y ys => simp [List.compareLex]
  | cons x xs ih =>
    cases ys with
    | nil => simp [List.compareLex]
    | cons y ys =>
      rw [List.compareLex_cons_cons, Ordering.then_eq_lt, ih, Std.LawfulEqCmp.compare_eq_iff_eq]
      constructor
      · rintro (h | ⟨rfl, h⟩)
        · exact .rel h
        · exact .cons h
      · intro h
        cases h with
        | rel h => exact .inl h
        | cons h => exact .inr ⟨rfl, h⟩

/-- Octets are compared one by one, as numbers. -/
theorem Text.compare_octets_eq_lt_iff {s t : Text.Octets} : compare s t = .lt ↔ s < t := by
  have hoctet : (fun x y : UInt8 => compare x y = .lt) = (· < ·) := by
    funext x y
    exact propext compareOfLessAndEq_eq_lt
  show List.compareLex compare s t = .lt ↔ List.Lex (· < ·) s t
  rw [compareLex_eq_lt_iff, hoctet]

/-- The component comes before the other: the root first, then `.`, then `..`, and then the names by
their octets. -/
inductive Component.Before : Component → Component → Prop where
  | root_current : Before .root .current
  | root_parent : Before .root .parent
  | root_name (s : RawText) : Before .root (.name s)
  | current_parent : Before .current .parent
  | current_name (s : RawText) : Before .current (.name s)
  | parent_name (s : RawText) : Before .parent (.name s)
  | name {s t : RawText} (h : s.octets < t.octets) : Before (.name s) (.name t)

/-- The kinds decide, and between two names their octets do. -/
theorem Component.order_eq_lt_iff_rank {a b : Component} :
    a.order b = .lt ↔ a.rank < b.rank ∨ a.rank = b.rank ∧ a.label < b.label := by
  rw [Component.order, Ordering.then_eq_lt, Nat.compare_eq_lt, Nat.compare_eq_eq,
    Text.compare_octets_eq_lt_iff]

theorem Component.order_eq_lt_iff {a b : Component} : a.order b = .lt ↔ a.Before b := by
  rw [Component.order_eq_lt_iff_rank]
  constructor
  · intro h
    cases a <;> cases b <;> simp [Component.rank, Component.label] at h
    case name.name s t => exact .name h
    all_goals constructor
  · intro h
    cases h with
    | name h => exact .inr ⟨rfl, h⟩
    | _ => exact .inl (by simp [Component.rank])

namespace Path

open Text (Octets)

/-- The path comes before the other: component by component, and a path before its extensions. -/
def Before (p q : Path) : Prop :=
  List.Lex Component.Before p.components q.components

/-- **The order of paths is that of their components.** -/
theorem order_eq_lt_iff {p q : Path} : p.order q = .lt ↔ p.Before q := by
  have hbefore : (fun a b => Component.order a b = .lt) = Component.Before := by
    funext a b
    exact propext Component.order_eq_lt_iff
  unfold order Before
  rw [compareLex_eq_lt_iff, hbefore]

/-! ## What does not count -/

/-- The components that a spelling has behind a slash. -/
def innerComponents (s : Octets) : List Component :=
  (slashPieces s).filterMap innerComponent?

/-- A slash inside a spelling separates what stands before it from what stands after it. -/
theorem componentsOf_append_slash {s : Octets} (hs : s ≠ []) (t : Octets) :
    componentsOf (s ++ slash :: t) = componentsOf s ++ innerComponents t := by
  have hhead : (s ++ slash :: t).head? = s.head? := List.head?_append_of_ne_nil _ hs
  have hinner : (slashPieces (s ++ slash :: t)).filterMap innerComponent? =
      innerComponents s ++ innerComponents t := by
    rw [slashPieces_append_slash, List.filterMap_append]
    rfl
  unfold componentsOf
  rw [hhead, head?_slashPieces_append_slash, hinner]
  dsimp only
  split
  · rfl
  · split <;> rfl

theorem componentsOf_slash (t : Octets) :
    componentsOf (slash :: t) = .root :: innerComponents t := by
  unfold componentsOf
  rw [slashPieces_slash]
  rfl

theorem innerComponents_slash (t : Octets) : innerComponents (slash :: t) = innerComponents t := by
  unfold innerComponents
  rw [slashPieces_slash]
  rfl

theorem innerComponents_point_slash (t : Octets) :
    innerComponents (point :: slash :: t) = innerComponents t := by
  have hpieces : slashPieces (point :: slash :: t) = [point] :: slashPieces t :=
    slashPieces_append_slash [point] t
  unfold innerComponents
  rw [hpieces]
  rfl

/-- **What does not count in a spelling**: a slash beside another, a slash at the end, a point
between slashes, and a point behind a slash at the end. -/
theorem sameComponents_idle (s t : Octets) :
    componentsOf (s ++ slash :: slash :: t) = componentsOf (s ++ slash :: t) ∧
      componentsOf (s ++ slash :: point :: slash :: t) = componentsOf (s ++ slash :: t) ∧
      (s ≠ [] → componentsOf (s ++ [slash]) = componentsOf s ∧
        componentsOf (s ++ [slash, point]) = componentsOf s) := by
  refine ⟨?_, ?_, fun hs => ⟨?_, ?_⟩⟩
  · by_cases hs : s = []
    · subst hs
      simp only [List.nil_append, componentsOf_slash, innerComponents_slash]
    · rw [componentsOf_append_slash hs, componentsOf_append_slash hs, innerComponents_slash]
  · by_cases hs : s = []
    · subst hs
      simp only [List.nil_append, componentsOf_slash, innerComponents_point_slash]
    · rw [componentsOf_append_slash hs, componentsOf_append_slash hs, innerComponents_point_slash]
  · have hend : innerComponents [] = [] := rfl
    rw [componentsOf_append_slash hs, hend, List.append_nil]
  · have hend : innerComponents [point] = [] := rfl
    rw [componentsOf_append_slash hs, hend, List.append_nil]

end Path

end CommitGate

import CommitGate.Toml.Document
import Mathlib.Data.List.Basic

/-!
# What the readers return

The readers of values call each other: arrays and inline tables hold values, which may be arrays and
inline tables. What holds of every scalar and is kept by putting arrays and inline tables together
holds of every value that is read. `Holds` collects what is to be shown; `Q` is what is known of a
table while it is put together.

Results:

* `Holds.readValue`, `Holds.readStatements`: it holds of every value that is read, and of every
  value in a statement.
* `readPath_ne_nil`, `path_ne_nil_of_readStatements`: a key and a header have at least one part.
-/

namespace CommitGate.Toml

/-- The value of a statement has the property. -/
def Statement.Has (P : Value → Prop) : Statement → Prop
  | .pair _ v => P v
  | _ => True

/-- The path of a statement. -/
def Statement.path : Statement → List String
  | .pair path _ => path
  | .table path => path
  | .item path => path

/-- The property holds of scalars, and is kept by putting arrays and inline tables together. -/
structure Holds (P : Value → Prop) (Q : Entries → Prop) : Prop where
  scalar : ∀ s v r, readScalar s = some (v, r) → P v
  array : ∀ vs, (∀ v ∈ vs, P v) → P (.array vs false)
  table : ∀ es, Q es → P (.table .inline es)
  nil : Q []
  assign : ∀ es es' path v, Q es → P v → Entries.assign path v es = some es' → Q es'

namespace Holds

variable {P : Value → Prop} {Q : Entries → Prop} {readItem : List Char → Option (Value × List Char)}

theorem readItems (hread : ∀ s v r, readItem s = some (v, r) → P v) {fuel : Nat} {s r : List Char}
    {vs : List Value} (h : Toml.readItems readItem fuel s = some (vs, r)) : ∀ v ∈ vs, P v := by
  induction fuel generalizing s vs r with
  | zero => cases h
  | succ fuel ih =>
    unfold Toml.readItems at h
    simp only [Option.bind_eq_bind, Option.bind_eq_some_iff] at h
    obtain ⟨s', -, h⟩ := h
    split at h
    · cases h
      exact fun v hv => absurd hv List.not_mem_nil
    · simp only [Option.bind_eq_some_iff] at h
      obtain ⟨⟨v, r'⟩, hitem, r'', -, h⟩ := h
      have hv := hread _ _ _ hitem
      split at h
      · simp only [Option.bind_eq_some_iff, Option.some.injEq, Prod.mk.injEq] at h
        obtain ⟨⟨vs', _⟩, hrest, rfl, -⟩ := h
        exact List.forall_mem_cons.2 ⟨hv, ih hrest⟩
      · cases h
        exact List.forall_mem_singleton.2 hv
      · cases h

theorem readPair (hread : ∀ s v r, readItem s = some (v, r) → P v) {s r : List Char}
    {path : List String} {v : Value} (h : Toml.readPair readItem s = some ((path, v), r)) :
    P v := by
  unfold Toml.readPair at h
  simp only [Option.bind_eq_bind, Option.bind_eq_some_iff, Option.some.injEq, Prod.mk.injEq] at h
  obtain ⟨⟨path', r'⟩, -, r'', -, ⟨v', r₃⟩, hitem, ⟨-, rfl⟩, -⟩ := h
  exact hread _ _ _ hitem

variable (hold : Holds P Q)

include hold in
theorem readPairs (hread : ∀ s v r, readItem s = some (v, r) → P v) {fuel : Nat} {es es' : Entries}
    {s r : List Char} (hes : Q es) (h : Toml.readPairs readItem fuel es s = some (es', r)) :
    Q es' := by
  induction fuel generalizing es s with
  | zero => cases h
  | succ fuel ih =>
    unfold Toml.readPairs at h
    simp only [Option.bind_eq_bind, Option.bind_eq_some_iff] at h
    obtain ⟨⟨⟨path, v⟩, r'⟩, hpair, es₁, hassign, h⟩ := h
    have hes₁ := hold.assign es es₁ path v hes (readPair hread hpair) hassign
    split at h
    · exact ih hes₁ h
    · cases h
      exact hes₁
    · cases h

include hold in
/-- **What holds of scalars and is kept holds of every value that is read.** -/
theorem readValue (depth : Nat) :
    ∀ s v r, Toml.readValue depth s = some (v, r) → P v := by
  induction depth with
  | zero => exact hold.scalar
  | succ depth ih =>
    intro s v r h
    unfold Toml.readValue at h
    split at h
    · simp only [Option.bind_eq_bind, Option.bind_eq_some_iff, Option.some.injEq,
        Prod.mk.injEq] at h
      obtain ⟨⟨vs, _⟩, hitems, rfl, -⟩ := h
      exact hold.array vs (readItems ih hitems)
    · split at h
      · cases h
        exact hold.table [] hold.nil
      · simp only [Option.bind_eq_bind, Option.bind_eq_some_iff, Option.some.injEq,
          Prod.mk.injEq] at h
        obtain ⟨⟨es, _⟩, hpairs, rfl, -⟩ := h
        exact hold.table es (hold.readPairs ih hold.nil hpairs)
    · exact hold.scalar _ _ _ h

include hold in
theorem readStatement {s r : List Char} {st : Statement}
    (h : Toml.readStatement s = some (st, r)) : st.Has P := by
  unfold Toml.readStatement at h
  split at h
  · simp only [Option.bind_eq_bind, Option.bind_eq_some_iff, Option.some.injEq, Prod.mk.injEq] at h
    obtain ⟨_, _, _, _, _, _, _, _, rfl, -⟩ := h
    trivial
  · simp only [Option.bind_eq_bind, Option.bind_eq_some_iff, Option.some.injEq, Prod.mk.injEq] at h
    obtain ⟨_, _, _, _, _, _, rfl, -⟩ := h
    trivial
  · simp only [Option.bind_eq_bind, Option.bind_eq_some_iff, Option.some.injEq, Prod.mk.injEq] at h
    obtain ⟨⟨⟨path, v⟩, r'⟩, hpair, _, _, rfl, -⟩ := h
    exact readPair (hold.readValue maxDepth) hpair

end Holds

/-- What holds of every statement that is read holds of all that are read. -/
theorem forall_of_readStatementsFrom {R : Statement → Prop}
    (hread : ∀ s st r, readStatement s = some (st, r) → R st) {fuel : Nat} {s : List Char}
    {sts : List Statement} (h : readStatementsFrom fuel s = some sts) : ∀ st ∈ sts, R st := by
  have hnil : ∀ st ∈ ([] : List Statement), R st := fun st hst => absurd hst List.not_mem_nil
  induction fuel generalizing s sts with
  | zero =>
    cases s <;> cases h
    exact hnil
  | succ fuel ih =>
    cases s with
    | nil =>
      cases h
      exact hnil
    | cons c s =>
      simp only [readStatementsFrom] at h
      split at h
      · exact ih h
      · simp only [Option.bind_eq_bind, Option.bind_eq_some_iff, Option.some.injEq] at h
        obtain ⟨⟨st, r⟩, hst, sts', hsts, rfl⟩ := h
        exact List.forall_mem_cons.2 ⟨hread _ _ _ hst, ih hsts⟩

/-- **What holds of scalars and is kept holds of every value in a statement that is read.** -/
theorem Holds.readStatements {P : Value → Prop} {Q : Entries → Prop} (hold : Holds P Q)
    {s : List Char} {sts : List Statement} (h : Toml.readStatements s = some sts) :
    ∀ st ∈ sts, st.Has P :=
  forall_of_readStatementsFrom (fun _ _ _ hst => hold.readStatement hst) h

/-! ## Paths -/

theorem readPath_ne_nil {parts : Nat} {s r : List Char} {path : List String}
    (h : readPath parts s = some (path, r)) : path ≠ [] := by
  cases parts with
  | zero => cases h
  | succ parts =>
    unfold readPath at h
    simp only [Option.bind_eq_bind, Option.bind_eq_some_iff] at h
    obtain ⟨⟨k, r'⟩, -, h⟩ := h
    split at h
    · simp only [Option.bind_eq_some_iff, Option.some.injEq, Prod.mk.injEq] at h
      obtain ⟨_, _, rfl, -⟩ := h
      exact List.cons_ne_nil _ _
    · cases h
      exact List.cons_ne_nil _ _

theorem path_ne_nil_of_readStatement {s r : List Char} {st : Statement}
    (h : readStatement s = some (st, r)) : st.path ≠ [] := by
  unfold readStatement at h
  split at h
  · simp only [Option.bind_eq_bind, Option.bind_eq_some_iff, Option.some.injEq, Prod.mk.injEq] at h
    obtain ⟨⟨path, _⟩, hpath, _, _, _, _, _, _, rfl, -⟩ := h
    exact readPath_ne_nil hpath
  · simp only [Option.bind_eq_bind, Option.bind_eq_some_iff, Option.some.injEq, Prod.mk.injEq] at h
    obtain ⟨⟨path, _⟩, hpath, _, _, _, _, rfl, -⟩ := h
    exact readPath_ne_nil hpath
  · simp only [Option.bind_eq_bind, Option.bind_eq_some_iff, Option.some.injEq, Prod.mk.injEq] at h
    obtain ⟨⟨⟨path, v⟩, r'⟩, hpair, _, _, rfl, -⟩ := h
    unfold readPair at hpair
    simp only [Option.bind_eq_bind, Option.bind_eq_some_iff, Option.some.injEq,
      Prod.mk.injEq] at hpair
    obtain ⟨⟨path', _⟩, hpath, _, _, _, _, ⟨rfl, -⟩, -⟩ := hpair
    exact readPath_ne_nil hpath

theorem path_ne_nil_of_readStatements {s : List Char} {sts : List Statement}
    (h : readStatements s = some sts) : ∀ st ∈ sts, st.path ≠ [] :=
  forall_of_readStatementsFrom (fun _ _ _ hst => path_ne_nil_of_readStatement hst) h

end CommitGate.Toml

import CommitGate.Toml.Document
import Mathlib.Data.List.Basic

/-!
# How a document grows

An address leads from a value to something inside it, by names and by positions in arrays. What can
be seen at an address is the kind of a table or an array, and everything of any other value. Neither
the order of the names of a table nor the way in which the table was written can be seen.

A statement never takes anything away: it puts a value at a new address and makes the tables on the
way. `Grows` tells all that a statement can do to a table, one constructor for each case, and what
follows is shown by induction on it.

Results:

* `Grows.seen_iff`: afterwards there can be seen what could be seen before, the value at its
  address, and the tables and arrays on the way.
* `Grows.items_eq`: only the header of an item makes an array longer.
* `Grows.tidy`: no name is given twice.
* `grows_assignFrom`, `grows_openTable`, `grows_openItem`, `grows_atHeader`: whatever is done to a
  document makes it grow.
-/

namespace CommitGate.Toml

/-! ## Addresses -/

/-- One step down into a value. -/
inductive Edge where
  | key (k : String)
  | item (i : Nat)
deriving DecidableEq, Repr

/-- The way from a value to something inside it. -/
abbrev Address := List Edge

/-- What can be seen of a value. -/
inductive Shape where
  | leaf (v : Value)
  | array
  | table

/-- What there has to be for a step. -/
def Edge.parent : Edge → Shape
  | .key _ => .table
  | .item _ => .array

namespace Value

/-- What can be seen of the value itself. -/
def shape : Value → Shape
  | .array _ _ => .array
  | .table _ _ => .table
  | v => .leaf v

/-- What stands at an address. -/
def at? : Value → Address → Option Value
  | v, [] => some v
  | .table _ es, .key k :: a => (es.lookup k).bind (at? · a)
  | .array items _, .item i :: a => items[i]?.bind (at? · a)
  | _, _ :: _ => none

/-- What can be seen at an address. -/
def seen (v : Value) (a : Address) : Option Shape :=
  (v.at? a).map shape

/-- The number of items that headers have opened at an address. -/
def items (v : Value) (a : Address) : Nat :=
  match v.at? a with
  | some (.array items true) => items.length
  | _ => 0

/-- No table in the value has a name twice. -/
def Tidy (v : Value) : Prop :=
  ∀ a origin es, v.at? a = some (.table origin es) → (es.map Prod.fst).Nodup

variable {v : Value} {origin origin' : Origin} {es : Entries} {vs : List Value} {b : Bool}

theorem at?_append (v : Value) (a a' : Address) : v.at? (a ++ a') = (v.at? a).bind (·.at? a') := by
  induction a generalizing v with
  | nil => rfl
  | cons e a ih =>
    cases v <;> cases e <;> try rfl
    · rename_i items extensible i
      show items[i]?.bind (at? · (a ++ a')) = _
      simp only [ih, at?, Option.bind_assoc]
    · rename_i origin es k
      show (es.lookup k).bind (at? · (a ++ a')) = _
      simp only [ih, at?, Option.bind_assoc]

theorem seen_append {a : Address} {w : Value} (h : v.at? a = some w) (a' : Address) :
    v.seen (a ++ a') = w.seen a' := by
  unfold seen
  rw [at?_append, h, Option.bind_some]

@[simp] theorem seen_nil (v : Value) : v.seen [] = some v.shape := by
  cases v <;> rfl

@[simp] theorem seen_key (origin : Origin) (es : Entries) (k : String) (a : Address) :
    (table origin es).seen (.key k :: a) = (es.lookup k).bind (·.seen a) := by
  unfold seen
  rw [at?, Option.map_bind]
  rfl

@[simp] theorem seen_table_item (origin : Origin) (es : Entries) (i : Nat) (a : Address) :
    (table origin es).seen (.item i :: a) = none := rfl

@[simp] theorem seen_item (vs : List Value) (b : Bool) (i : Nat) (a : Address) :
    (array vs b).seen (.item i :: a) = vs[i]?.bind (·.seen a) := by
  unfold seen
  rw [at?, Option.map_bind]
  rfl

@[simp] theorem seen_array_key (vs : List Value) (b : Bool) (k : String) (a : Address) :
    (array vs b).seen (.key k :: a) = none := rfl

theorem seen_key_nil (origin : Origin) (es : Entries) (k : String) :
    (table origin es).seen [.key k] = (es.lookup k).map shape := by
  rw [seen_key]
  cases es.lookup k with
  | none => rfl
  | some v => exact seen_nil v

theorem seen_item_nil (vs : List Value) (b : Bool) (i : Nat) :
    (array vs b).seen [.item i] = vs[i]?.map shape := by
  rw [seen_item]
  cases vs[i]? with
  | none => rfl
  | some v => exact seen_nil v

/-- The origin of a table cannot be seen. -/
theorem seen_origin (origin origin' : Origin) (es : Entries) (a : Address) :
    (table origin es).seen a = (table origin' es).seen a := by
  match a with
  | [] => rfl
  | .key k :: a => rw [seen_key, seen_key]
  | .item i :: a => rfl

theorem items_key (origin : Origin) (es : Entries) (k : String) (a : Address) :
    (table origin es).items (.key k :: a) = (es.lookup k).elim 0 (·.items a) := by
  unfold items
  rw [at?]
  cases es.lookup k <;> rfl

theorem items_item (vs : List Value) (b : Bool) (i : Nat) (a : Address) :
    (array vs b).items (.item i :: a) = vs[i]?.elim 0 (·.items a) := by
  unfold items
  rw [at?]
  cases vs[i]? <;> rfl

theorem tidy_table_iff :
    (table origin es).Tidy ↔
      (es.map Prod.fst).Nodup ∧ ∀ k w, es.lookup k = some w → w.Tidy := by
  constructor
  · intro h
    refine ⟨h [] origin es rfl, fun k w hw a origin' inner ha => h (.key k :: a) origin' inner ?_⟩
    rw [at?, hw, Option.bind_some, ha]
  · rintro ⟨hnodup, hinner⟩ a origin' inner ha
    match a with
    | [] =>
      cases ha
      exact hnodup
    | .key k :: a =>
      rw [at?] at ha
      obtain ⟨w, hw, hwa⟩ := Option.bind_eq_some_iff.1 ha
      exact hinner k w hw a origin' inner hwa
    | .item i :: a => cases ha

theorem tidy_array_iff : (array vs b).Tidy ↔ ∀ w ∈ vs, w.Tidy := by
  constructor
  · intro h w hw a origin inner ha
    obtain ⟨i, hi⟩ := List.mem_iff_getElem?.1 hw
    refine h (.item i :: a) origin inner ?_
    rw [at?, hi, Option.bind_some, ha]
  · intro h a origin inner ha
    match a with
    | [] => cases ha
    | .key k :: a => cases ha
    | .item i :: a =>
      rw [at?] at ha
      obtain ⟨w, hw, hwa⟩ := Option.bind_eq_some_iff.1 ha
      exact h w (List.mem_of_getElem? hw) a origin inner hwa

end Value

/-! ## Growing -/

namespace Entries

/-- What stands at an address of a table. -/
def at? (es : Entries) (a : Address) : Option Value :=
  (Value.table .header es).at? a

/-- What can be seen at an address of a table. -/
def seen (es : Entries) (a : Address) : Option Shape :=
  (Value.table .header es).seen a

/-- The number of items that headers have opened at an address of a table. -/
def items (es : Entries) (a : Address) : Nat :=
  (Value.table .header es).items a

/-- No table has a name twice. -/
def Tidy (es : Entries) : Prop :=
  (Value.table .header es).Tidy

/-- The table grows by a value at an address that the path leads to; `opens` says that the value is
one more item of an array of tables. On the way the last item of an array is meant. -/
inductive Grows (opens : Bool) (v : Value) : Entries → List String → Address → Entries → Prop where
  /-- The name is new. -/
  | added {es : Entries} {k : String} (hopens : opens = false) (h : es.lookup k = none) :
      Grows opens v es [k] [.key k] (es.add k v)
  /-- The table was implied, and has a header now. -/
  | opened {es inner : Entries} {k : String} (hopens : opens = false) (hv : v = .table .header [])
      (h : es.lookup k = some (.table .implied inner)) :
      Grows opens v es [k] [.key k] (es.replace k (.table .header inner))
  /-- The first item of an array. -/
  | begun {es : Entries} {k : String} (hopens : opens = true) (h : es.lookup k = none) :
      Grows opens v es [k] [.key k, .item 0] (es.add k (.array [v] true))
  /-- One more item of an array. -/
  | extended {es : Entries} {k : String} {vs : List Value} (hopens : opens = true)
      (h : es.lookup k = some (.array vs true)) :
      Grows opens v es [k] [.key k, .item vs.length] (es.replace k (.array (vs ++ [v]) true))
  /-- A table on the way is made. -/
  | made {es inner : Entries} {k : String} {path : List String} {a : Address} (origin : Origin)
      (h : es.lookup k = none) (hinner : Grows opens v [] path a inner) :
      Grows opens v es (k :: path) (.key k :: a) (es.add k (.table origin inner))
  /-- A table on the way grows. -/
  | inside {es inner inner' : Entries} {k : String} {path : List String} {a : Address}
      {origin : Origin} (h : es.lookup k = some (.table origin inner))
      (hinner : Grows opens v inner path a inner') :
      Grows opens v es (k :: path) (.key k :: a) (es.replace k (.table origin inner'))
  /-- The last item of an array on the way grows. -/
  | insideLast {es inner inner' : Entries} {k : String} {path : List String} {a : Address}
      {front : List Value} {origin : Origin}
      (h : es.lookup k = some (.array (front ++ [.table origin inner]) true))
      (hinner : Grows opens v inner path a inner') :
      Grows opens v es (k :: path) (.key k :: .item front.length :: a)
        (es.replace k (.array (front ++ [.table origin inner']) true))

variable {opens : Bool} {v w : Value} {es es' : Entries} {k : String} {path : List String}
  {a : Address}

theorem Grows.exists_key (h : Grows opens v es path a es') : ∃ k f, a = .key k :: f := by
  cases h <;> exact ⟨_, _, rfl⟩

theorem Grows.path_ne_nil (h : Grows opens v es path a es') : path ≠ [] := by
  cases h <;> exact List.cons_ne_nil _ _

/-- After the change the name stands for `w`, and the others for what they did. -/
def Sets (es : Entries) (k : String) (w : Value) (es' : Entries) : Prop :=
  ∀ x, es'.lookup x = if x = k then some w else es.lookup x

theorem sets_add (h : es.lookup k = none) (w : Value) : Sets es k w (es.add k w) := by
  intro x
  have hlast : List.lookup x [(k, w)] = if x = k then some w else none := lookup_cons_eq (k, w) [] x
  rw [add, List.lookup_append, hlast]
  by_cases hx : x = k
  · subst hx
    simp [h]
  · simp [hx]

theorem sets_replace (h : es.lookup k = some v) (w : Value) : Sets es k w (es.replace k w) := by
  intro x
  rw [lookup_replace, h]
  simp

/-! ## What can be seen -/

/-- What a value at an address gives to see: the tables and arrays on the way, and the value. -/
def Puts (v : Value) : Address → Address → Shape → Prop
  | [], a, s => v.seen a = some s
  | e :: _, [], s => s = e.parent
  | e :: f, e' :: a, s => e' = e ∧ Puts v f a s

theorem seen_iff_of_sets {f : Address} (h : Sets es k w es')
    (hk : ∀ a s, w.seen a = some s ↔ (es.lookup k).bind (·.seen a) = some s ∨ Puts v f a s)
    (a : Address) (s : Shape) :
    es'.seen a = some s ↔ es.seen a = some s ∨ Puts v (.key k :: f) a s := by
  unfold seen
  match a with
  | [] =>
    show some Shape.table = some s ↔ some Shape.table = some s ∨ s = Shape.table
    rw [Option.some.injEq, eq_comm (a := Shape.table), or_self]
  | .item i :: a =>
    simp only [Value.seen_table_item, Puts, reduceCtorEq, false_and, or_self]
  | .key x :: a =>
    rw [Value.seen_key, Value.seen_key, h x, Puts, Edge.key.injEq]
    by_cases hx : x = k
    · subst hx
      rw [if_pos rfl, Option.bind_some, hk a s]
      simp only [true_and]
    · simp only [hx, if_false, false_and, or_false]

theorem seen_empty_iff {s : Shape} : seen [] a = some s ↔ a = [] ∧ s = .table := by
  unfold seen
  match a with
  | [] =>
    show some Shape.table = some s ↔ _
    rw [Option.some.injEq, eq_comm]
    simp only [true_and]
  | .item i :: a => simp
  | .key x :: a => simp

theorem seen_array_concat (front : List Value) (w : Value) (b : Bool) (f : Address) (s : Shape) :
    (Value.array (front ++ [w]) b).seen f = some s ↔
      (Value.array front b).seen f = some s ∨ Puts w [.item front.length] f s := by
  match f with
  | [] =>
    show some Shape.array = some s ↔ some Shape.array = some s ∨ s = Shape.array
    rw [Option.some.injEq, eq_comm (a := Shape.array), or_self]
  | .key x :: f => simp [Puts]
  | .item i :: f =>
    rw [Value.seen_item, Value.seen_item, Puts, Puts, Edge.item.injEq]
    rcases Nat.lt_trichotomy i front.length with hlt | rfl | hgt
    · rw [List.getElem?_append_left hlt]
      simp only [Nat.ne_of_lt hlt, false_and, or_false]
    · simp
    · rw [List.getElem?_eq_none (by simp; omega), List.getElem?_eq_none (Nat.le_of_lt hgt)]
      simp only [Nat.ne_of_gt hgt, false_and, or_false]

theorem seen_array_nil {b : Bool} {f : Address} {s : Shape} :
    (Value.array [] b).seen f = some s ↔ f = [] ∧ s = .array := by
  match f with
  | [] =>
    show some Shape.array = some s ↔ _
    rw [Option.some.injEq, eq_comm]
    simp only [true_and]
  | .item i :: f => simp
  | .key x :: f => simp

/-- **Afterwards there can be seen what could be seen before, and the value at its address with the
tables and arrays on the way.** -/
theorem Grows.seen_iff (h : Grows opens v es path a es') (f : Address) (s : Shape) :
    es'.seen f = some s ↔ es.seen f = some s ∨ Puts v a f s := by
  induction h generalizing f s with
  | added _ h =>
    refine seen_iff_of_sets (sets_add h v) (fun f s => ?_) f s
    rw [h]
    simp only [Option.bind_none, reduceCtorEq, false_or, Puts]
  | @opened es inner k _ hv h =>
    refine seen_iff_of_sets (sets_replace h _) (fun f s => ?_) f s
    rw [h, Option.bind_some, Value.seen_origin .implied .header]
    refine ⟨.inl, fun hf => hf.elim id fun hputs => ?_⟩
    rw [hv] at hputs
    obtain ⟨rfl, rfl⟩ := seen_empty_iff.1 hputs
    rfl
  | begun _ h =>
    refine seen_iff_of_sets (sets_add h _) (fun f s => ?_) f s
    rw [h]
    refine (seen_array_concat [] v true f s).trans ?_
    simp only [Option.bind_none, reduceCtorEq, false_or]
    refine or_iff_right_of_imp fun hempty => ?_
    obtain ⟨rfl, rfl⟩ := seen_array_nil.1 hempty
    rfl
  | @extended es k vs _ h =>
    refine seen_iff_of_sets (sets_replace h _) (fun f s => ?_) f s
    rw [h]
    exact seen_array_concat vs v true f s
  | @made es inner k path a origin h hinner ih =>
    refine seen_iff_of_sets (sets_add h _) (fun f s => ?_) f s
    rw [h, Value.seen_origin origin .header]
    refine (ih f s).trans ?_
    obtain ⟨k', f', rfl⟩ := hinner.exists_key
    simp only [Option.bind_none, reduceCtorEq, false_or]
    refine or_iff_right_of_imp fun hempty => ?_
    obtain ⟨rfl, rfl⟩ := seen_empty_iff.1 hempty
    rfl
  | @inside es inner inner' k path a origin h hinner ih =>
    refine seen_iff_of_sets (sets_replace h _) (fun f s => ?_) f s
    rw [h, Option.bind_some, Value.seen_origin origin .header, Value.seen_origin origin .header]
    exact ih f s
  | @insideLast es inner inner' k path a front origin h hinner ih =>
    refine seen_iff_of_sets (sets_replace h _) (fun f s => ?_) f s
    rw [h, Option.bind_some, seen_array_concat, seen_array_concat, or_assoc]
    refine or_congr_right ?_
    match f with
    | [] => simp only [Puts, or_self]
    | e :: f =>
      simp only [Puts, ← and_or_left]
      refine and_congr_right fun _ => ?_
      rw [Value.seen_origin origin .header, Value.seen_origin origin .header]
      exact ih f s

/-! ## How many items there are -/

/-- How many items are opened at an address when one is put at another. -/
def opening (opens : Bool) (a f : Address) : Nat :=
  if opens = true ∧ f = a.dropLast then 1 else 0

theorem opening_false (a f : Address) : opening false a f = 0 := by
  simp [opening]

theorem opening_cons (e e' : Edge) {a : Address} (ha : a ≠ []) (f : Address) :
    opening opens (e :: a) (e' :: f) = if e' = e then opening opens a f else 0 := by
  unfold opening
  simp only [List.dropLast_cons_of_ne_nil ha, List.cons.injEq]
  by_cases he : e' = e <;> simp [he]

theorem opening_nil (e : Edge) {a : Address} (ha : a ≠ []) : opening opens (e :: a) [] = 0 := by
  unfold opening
  rw [List.dropLast_cons_of_ne_nil ha]
  simp

theorem items_of_sets {f : Address} (hf : opens = true → f ≠ []) (h : Sets es k w es')
    (hk : ∀ b, w.items b = (es.lookup k).elim 0 (·.items b) + opening opens f b) (b : Address) :
    es'.items b = es.items b + opening opens (.key k :: f) b := by
  unfold items
  cases opens with
  | false =>
    simp only [opening_false, Nat.add_zero] at hk ⊢
    match b with
    | [] => rfl
    | .item i :: b => rfl
    | .key x :: b =>
      rw [Value.items_key, Value.items_key, h x]
      by_cases hx : x = k
      · subst hx
        rw [if_pos rfl]
        exact hk b
      · rw [if_neg hx]
  | true =>
    have hne := hf rfl
    match b with
    | [] => rw [opening_nil _ hne]; rfl
    | .item i :: b => rw [opening_cons _ _ hne]; rfl
    | .key x :: b =>
      rw [Value.items_key, Value.items_key, h x, opening_cons _ _ hne]
      simp only [Edge.key.injEq]
      by_cases hx : x = k
      · subst hx
        rw [if_pos rfl, if_pos rfl]
        exact hk b
      · rw [if_neg hx, if_neg hx, Nat.add_zero]

theorem items_array_concat (front : List Value) (hw : ∀ b, w.items b = 0) (b : Address) :
    (Value.array (front ++ [w]) true).items b =
      (Value.array front true).items b + opening true [.item front.length] b := by
  match b with
  | [] => exact List.length_append
  | .key x :: b => rfl
  | .item i :: b =>
    have hopening : opening true [.item front.length] (.item i :: b) = 0 := by simp [opening]
    rw [Value.items_item, Value.items_item, hopening]
    rcases Nat.lt_trichotomy i front.length with hlt | rfl | hgt
    · rw [List.getElem?_append_left hlt]
      rfl
    · simp [hw]
    · rw [List.getElem?_eq_none (by simp; omega), List.getElem?_eq_none (Nat.le_of_lt hgt)]
      rfl

theorem items_array_last {front : List Value} {w w' : Value} (ha : a ≠ [])
    (hw : ∀ b, w'.items b = w.items b + opening opens a b) (b : Address) :
    (Value.array (front ++ [w']) true).items b =
      (Value.array (front ++ [w]) true).items b + opening opens (.item front.length :: a) b := by
  match b with
  | [] =>
    rw [opening_nil _ ha]
    show (front ++ [w']).length = (front ++ [w]).length + 0
    simp
  | .key x :: b =>
    rw [opening_cons _ _ ha]
    rfl
  | .item i :: b =>
    rw [Value.items_item, Value.items_item, opening_cons _ _ ha]
    simp only [Edge.item.injEq]
    rcases Nat.lt_trichotomy i front.length with hlt | rfl | hgt
    · rw [List.getElem?_append_left hlt, List.getElem?_append_left hlt,
        if_neg (Nat.ne_of_lt hlt), Nat.add_zero]
    · simpa using hw b
    · rw [List.getElem?_eq_none (by simp; omega), List.getElem?_eq_none (by simp; omega),
        if_neg (Nat.ne_of_gt hgt)]
      rfl

theorem items_empty (a : Address) : items [] a = 0 := by
  unfold items
  match a with
  | [] => rfl
  | .item i :: a => rfl
  | .key x :: a => rfl

/-- The origin of a table does not count. -/
theorem items_origin (origin : Origin) (es : Entries) (b : Address) :
    (Value.table origin es).items b = es.items b := by
  unfold items
  match b with
  | [] => rfl
  | .item i :: b => rfl
  | .key x :: b => rw [Value.items_key, Value.items_key]

theorem items_array_nil (b : Address) : (Value.array [] true).items b = 0 := by
  match b with
  | [] => rfl
  | .item i :: b => rfl
  | .key x :: b => rfl

/-- **Only the header of an item makes an array longer**, where the value has no such arrays. -/
theorem Grows.items_eq (h : Grows opens v es path a es') (hv : ∀ b, v.items b = 0) (b : Address) :
    es'.items b = es.items b + opening opens a b := by
  induction h generalizing b with
  | added hopens h =>
    subst hopens
    refine items_of_sets (by simp) (sets_add h v) (fun b => ?_) b
    rw [hv, h]
    rfl
  | opened hopens _ h =>
    subst hopens
    refine items_of_sets (by simp) (sets_replace h _) (fun b => ?_) b
    rw [h, opening_false, items_origin]
    exact (items_origin .implied _ b).symm
  | begun hopens h =>
    subst hopens
    refine items_of_sets (by simp) (sets_add h _) (fun b => ?_) b
    rw [h]
    exact (items_array_concat [] hv b).trans (by rw [items_array_nil]; rfl)
  | extended hopens h =>
    subst hopens
    refine items_of_sets (by simp) (sets_replace h _) (fun b => ?_) b
    rw [h]
    exact items_array_concat _ hv b
  | made origin h hinner ih =>
    obtain ⟨k', f', rfl⟩ := hinner.exists_key
    refine items_of_sets (by simp) (sets_add h _) (fun b => ?_) b
    rw [h, items_origin, ih b, items_empty]
    rfl
  | inside h hinner ih =>
    obtain ⟨k', f', rfl⟩ := hinner.exists_key
    refine items_of_sets (by simp) (sets_replace h _) (fun b => ?_) b
    rw [h, items_origin, ih b]
    exact congrArg (· + _) (items_origin _ _ b).symm
  | insideLast h hinner ih =>
    obtain ⟨k', f', rfl⟩ := hinner.exists_key
    refine items_of_sets (by simp) (sets_replace h _) (fun b => ?_) b
    rw [h]
    refine items_array_last (by simp) (fun b => ?_) b
    rw [items_origin, items_origin]
    exact ih b

/-! ## Names -/

theorem not_mem_of_lookup_eq_none (h : es.lookup k = none) : k ∉ es.map Prod.fst := by
  intro hmem
  obtain ⟨e, he, rfl⟩ := List.mem_map.1 hmem
  have hne := List.lookup_eq_none_iff.1 h e he
  simp at hne

theorem nodup_add (h : es.lookup k = none) (hes : (es.map Prod.fst).Nodup) (w : Value) :
    ((es.add k w).map Prod.fst).Nodup := by
  have hnew := not_mem_of_lookup_eq_none h
  rw [add, List.map_append, List.map_singleton, List.nodup_append]
  refine ⟨hes, by simp, fun x hx y hy => ?_⟩
  rw [List.mem_singleton.1 hy]
  rintro rfl
  exact hnew hx

theorem map_fst_replace (k : String) (w : Value) (es : Entries) :
    (es.replace k w).map Prod.fst = es.map Prod.fst := by
  induction es with
  | nil => rfl
  | cons e es ih =>
    unfold replace
    split
    · next heq => rw [List.map_cons, List.map_cons, heq]
    · rw [List.map_cons, List.map_cons, ih]

theorem tidy_of_sets (hes : es.Tidy) (hw : w.Tidy) (h : Sets es k w es')
    (hnodup : (es'.map Prod.fst).Nodup) : es'.Tidy := by
  refine Value.tidy_table_iff.2 ⟨hnodup, fun x u hu => ?_⟩
  rw [h x] at hu
  split at hu
  · cases hu
    exact hw
  · exact (Value.tidy_table_iff.1 hes).2 x u hu

theorem tidy_add (hes : es.Tidy) (h : es.lookup k = none) (hw : w.Tidy) : (es.add k w).Tidy :=
  tidy_of_sets hes hw (sets_add h w) (nodup_add h (Value.tidy_table_iff.1 hes).1 w)

theorem tidy_replace (hes : es.Tidy) (h : es.lookup k = some v) (hw : w.Tidy) :
    (es.replace k w).Tidy := by
  refine tidy_of_sets hes hw (sets_replace h w) ?_
  rw [map_fst_replace]
  exact (Value.tidy_table_iff.1 hes).1

/-- The origin of a table does not matter. -/
theorem tidy_origin {origin : Origin} : (Value.table origin es).Tidy ↔ es.Tidy :=
  Value.tidy_table_iff.trans Value.tidy_table_iff.symm

theorem tidy_nil : Tidy [] :=
  Value.tidy_table_iff.2 ⟨List.nodup_nil, fun _ _ h => by cases h⟩

theorem Tidy.lookup (hes : es.Tidy) (h : es.lookup k = some v) : v.Tidy :=
  (Value.tidy_table_iff.1 hes).2 k v h

/-- **No name is given twice.** -/
theorem Grows.tidy (h : Grows opens v es path a es') (hv : v.Tidy) (hes : es.Tidy) : es'.Tidy := by
  induction h with
  | added _ h => exact tidy_add hes h hv
  | opened _ _ h => exact tidy_replace hes h (tidy_origin.2 (tidy_origin.1 (hes.lookup h)))
  | begun _ h =>
    refine tidy_add hes h (Value.tidy_array_iff.2 fun w hw => ?_)
    rw [List.mem_singleton.1 hw]
    exact hv
  | extended _ h =>
    refine tidy_replace hes h (Value.tidy_array_iff.2 fun w hw => ?_)
    rcases List.mem_append.1 hw with hvs | hlast
    · exact Value.tidy_array_iff.1 (hes.lookup h) w hvs
    · rw [List.mem_singleton.1 hlast]
      exact hv
  | made origin h _ ih => exact tidy_add hes h (tidy_origin.2 (ih tidy_nil))
  | inside h _ ih =>
    exact tidy_replace hes h (tidy_origin.2 (ih (tidy_origin.1 (hes.lookup h))))
  | insideLast h _ ih =>
    have hitems := Value.tidy_array_iff.1 (hes.lookup h)
    refine tidy_replace hes h (Value.tidy_array_iff.2 fun w hw => ?_)
    rcases List.mem_append.1 hw with hfront | hlast
    · exact hitems w (List.mem_append_left _ hfront)
    · rw [List.mem_singleton.1 hlast]
      exact tidy_origin.2 (ih (tidy_origin.1 (hitems _ (List.mem_concat_self))))

/-! ## Statements make a document grow -/

theorem grows_openTable (h : es.openTable k = some es') :
    ∃ a, Grows false (.table .header []) es [k] a es' := by
  unfold openTable at h
  split at h
  · next hlookup =>
    cases h
    exact ⟨_, .added rfl hlookup⟩
  · next hlookup =>
    cases h
    exact ⟨_, .opened rfl rfl hlookup⟩
  · cases h

theorem grows_openItem (h : es.openItem k = some es') :
    ∃ a, Grows true (.table .header []) es [k] a es' := by
  unfold openItem at h
  split at h
  · next hlookup =>
    cases h
    exact ⟨_, .begun rfl hlookup⟩
  · next hlookup =>
    cases h
    exact ⟨_, .extended rfl hlookup⟩
  · cases h

/-- A change of a table, as its last item or on its own, makes the whole grow. -/
theorem grows_atHeader {f : Entries → Option Entries} {path' : List String}
    (hf : ∀ inner inner', f inner = some inner' → ∃ a, Grows opens v inner path' a inner')
    (h : atHeader f path es = some es') : ∃ a, Grows opens v es (path ++ path') a es' := by
  induction path generalizing es es' with
  | nil => exact hf es es' h
  | cons k path ih =>
    unfold atHeader at h
    split at h
    · next hlookup =>
      obtain ⟨inner, hinner, heq⟩ := Option.bind_eq_some_iff.1 h
      cases heq
      obtain ⟨a, ha⟩ := ih hinner
      exact ⟨_, .made .implied hlookup ha⟩
    · cases h
    · next hlookup =>
      obtain ⟨inner, hinner, heq⟩ := Option.bind_eq_some_iff.1 h
      cases heq
      obtain ⟨a, ha⟩ := ih hinner
      exact ⟨_, .inside hlookup ha⟩
    · next items hlookup =>
      split at h
      · next hlast =>
        obtain ⟨inner, hinner, heq⟩ := Option.bind_eq_some_iff.1 h
        cases heq
        obtain ⟨a, ha⟩ := ih hinner
        obtain ⟨front, rfl⟩ := List.getLast?_eq_some_iff.1 hlast
        rw [List.dropLast_concat]
        exact ⟨_, .insideLast hlookup ha⟩
      · cases h
    · cases h

/-- Giving a key a value makes the table grow. -/
theorem grows_assignFrom {made : Bool} (h : assignFrom v made path es = some es') :
    ∃ a, Grows false v es path a es' := by
  induction path generalizing made es es' with
  | nil => cases h
  | cons k path ih =>
    cases path with
    | nil =>
      unfold assignFrom at h
      split at h
      · next hnew =>
        cases h
        exact ⟨_, .added rfl hnew.2⟩
      · cases h
    | cons k' path =>
      unfold assignFrom at h
      split at h
      · next hlookup =>
        obtain ⟨inner, hinner, heq⟩ := Option.bind_eq_some_iff.1 h
        cases heq
        obtain ⟨a, ha⟩ := ih hinner
        exact ⟨_, .made .dotted hlookup ha⟩
      · next hlookup =>
        obtain ⟨inner, hinner, heq⟩ := Option.bind_eq_some_iff.1 h
        cases heq
        obtain ⟨a, ha⟩ := ih hinner
        exact ⟨_, .inside hlookup ha⟩
      · next hlookup =>
        obtain ⟨inner, hinner, heq⟩ := Option.bind_eq_some_iff.1 h
        cases heq
        obtain ⟨a, ha⟩ := ih hinner
        exact ⟨_, .inside hlookup ha⟩
      · next items hlookup =>
        split at h
        · next hlast =>
          obtain ⟨inner, hinner, heq⟩ := Option.bind_eq_some_iff.1 h
          cases heq
          obtain ⟨a, ha⟩ := ih hinner
          obtain ⟨front, rfl⟩ := List.getLast?_eq_some_iff.1 hlast
          rw [List.dropLast_concat]
          exact ⟨_, .insideLast hlookup ha⟩
        · cases h
      · cases h

end Entries

end CommitGate.Toml

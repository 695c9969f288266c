import CommitGate.Proofs.Toml.Growth
import CommitGate.Proofs.Toml.Reading

/-!
# What a document says

Each statement puts one value at one address: a key its value, a header an empty table. The address
is told by the path of the statement and the header above it; where a name stands for an array of
tables, the item that was opened last is meant. What a document says is what these values give to
see, together with the tables and arrays on the way to them.

So the order of the statements counts for nothing but the addresses: the header that a key belongs
to, and the items that were opened before.

Results:

* `Entries.Grows.place_eq`: the address of a statement is told by the items opened before it.
* `seen_iff_asserts`, `tidy_parse?`: in the table that a text describes there stands what the text
  says, and no name is given twice.
-/

namespace CommitGate.Toml

/-! ## The addresses of statements -/

/-- The item that was opened last at an address, or the address itself where there is none. -/
def enter (opened : List Address) (a : Address) : Address :=
  match opened.count a with
  | 0 => a
  | n + 1 => a ++ [.item n]

/-- The address that a path leads to; `opens` says that it is that of one more item. -/
def place (opened : List Address) (opens : Bool) (base : Address) : List String → Address
  | [] => base
  | [k] =>
    let a := base ++ [.key k]
    if opens then a ++ [.item (opened.count a)] else a
  | k :: path => place opened opens (enter opened (base ++ [.key k])) path

namespace Statement

/-- The statement opens one more item of an array. -/
def opens : Statement → Bool
  | .item _ => true
  | _ => false

/-- The value that the statement puts somewhere. -/
def value : Statement → Value
  | .pair _ v => v
  | _ => .table .header []

/-- The path from the whole document, under the header at hand. -/
def pathFrom (current : List String) : Statement → List String
  | .pair path _ => current ++ path
  | .table path => path
  | .item path => path

/-- The header at hand after the statement. -/
def currentAfter (current : List String) : Statement → List String
  | .pair _ _ => current
  | .table path => path
  | .item path => path

/-- No table has a name twice, and headers have opened no items in the value. -/
def Sound (v : Value) : Prop :=
  v.Tidy ∧ ∀ a, v.items a = 0

end Statement

/-- What was said before a statement: the arrays whose items were opened, each once for every item,
and the header at hand. -/
structure Context where
  opened : List Address
  current : List String

namespace Context

/-- Before the first statement. -/
def start : Context := ⟨[], []⟩

/-- The address of a statement. -/
def address (c : Context) (st : Statement) : Address :=
  place c.opened st.opens [] (st.pathFrom c.current)

/-- What was said before the next statement. -/
def after (c : Context) (st : Statement) : Context :=
  ⟨if st.opens then (c.address st).dropLast :: c.opened else c.opened, st.currentAfter c.current⟩

/-- The values that statements put somewhere, each with its address. -/
def tell (c : Context) : List Statement → List (Address × Value)
  | [] => []
  | st :: sts => (c.address st, st.value) :: tell (c.after st) sts

end Context

/-- What values at their addresses give to see. -/
def Said (told : List (Address × Value)) (a : Address) (s : Shape) : Prop :=
  a = [] ∧ s = .table ∨ ∃ p ∈ told, Entries.Puts p.2 p.1 a s

/-- What a text says, where it can be read. -/
def Asserts (text : String) (a : Address) (s : Shape) : Prop :=
  ∃ sts, readStatements text.toList = some sts ∧ Said (Context.start.tell sts) a s

/-! ## Addresses and growth -/

theorem place_cons {opened : List Address} {opens : Bool} {path : List String} (hpath : path ≠ [])
    (base : Address) (k : String) :
    place opened opens base (k :: path) =
      place opened opens (enter opened (base ++ [.key k])) path := by
  cases path with
  | nil => exact absurd rfl hpath
  | cons k' path => rfl

theorem enter_of_count_eq_zero {opened : List Address} {a : Address} (h : opened.count a = 0) :
    enter opened a = a := by
  rw [enter, h]

/-- The first step of a path, and what its rest leads to. -/
theorem place_cons_eq {opened : List Address} {opens : Bool} {path : List String} {k : String}
    {base b a : Address} (hpath : path ≠ []) (henter : enter opened (base ++ [.key k]) = base ++ b)
    (h : place opened opens (base ++ b) path = base ++ b ++ a) :
    place opened opens base (k :: path) = base ++ (b ++ a) := by
  rw [place_cons hpath, henter, h, List.append_assoc]

namespace Entries

variable {opens : Bool} {v : Value} {es es' : Entries} {path : List String} {a : Address}
  {opened : List Address}

theorem items_of_lookup {k : String} (h : es.lookup k = some v) (a : Address) :
    es.items (.key k :: a) = v.items a := by
  unfold items
  rw [Value.items_key, h]
  rfl

theorem items_of_lookup_eq_none {k : String} (h : es.lookup k = none) (a : Address) :
    es.items (.key k :: a) = 0 := by
  unfold items
  rw [Value.items_key, h]
  rfl

/-- **The address is told by the items that were opened before.** -/
theorem Grows.place_eq (h : Grows opens v es path a es') {base : Address}
    (hopened : ∀ b, opened.count (base ++ b) = es.items b) :
    place opened opens base path = base ++ a := by
  induction h generalizing base with
  | added hopens _ =>
    subst hopens
    rfl
  | opened hopens _ _ =>
    subst hopens
    rfl
  | @begun es k hopens h =>
    subst hopens
    have hcount : opened.count (base ++ [.key k]) = 0 := by
      rw [hopened, items_of_lookup_eq_none h]
    show (base ++ [.key k]) ++ [.item (opened.count (base ++ [.key k]))] = _
    rw [hcount, List.append_assoc]
    rfl
  | @extended es k vs hopens h =>
    subst hopens
    have hcount : opened.count (base ++ [.key k]) = vs.length := by
      rw [hopened, items_of_lookup h]
      rfl
    show (base ++ [.key k]) ++ [.item (opened.count (base ++ [.key k]))] = _
    rw [hcount, List.append_assoc]
    rfl
  | @made es inner k path a origin h hinner ih =>
    have hcount : opened.count (base ++ [.key k]) = 0 := by
      rw [hopened, items_of_lookup_eq_none h]
    have hbelow : ∀ b, opened.count (base ++ [.key k] ++ b) = items [] b := by
      intro b
      rw [List.append_assoc, hopened, items_empty]
      exact items_of_lookup_eq_none h b
    exact place_cons_eq hinner.path_ne_nil (enter_of_count_eq_zero hcount) (ih hbelow)
  | @inside es inner inner' k path a origin h hinner ih =>
    have hcount : opened.count (base ++ [.key k]) = 0 := by
      rw [hopened, items_of_lookup h]
      rfl
    have hbelow : ∀ b, opened.count (base ++ [.key k] ++ b) = inner.items b := by
      intro b
      rw [List.append_assoc, hopened]
      exact (items_of_lookup h b).trans (items_origin origin inner b)
    exact place_cons_eq hinner.path_ne_nil (enter_of_count_eq_zero hcount) (ih hbelow)
  | @insideLast es inner inner' k path a front origin h hinner ih =>
    have hcount : opened.count (base ++ [.key k]) = front.length + 1 := by
      rw [hopened, items_of_lookup h]
      exact List.length_append
    have henter : enter opened (base ++ [.key k]) = base ++ [.key k, .item front.length] := by
      rw [enter, hcount]
      exact List.append_assoc _ _ _
    have hbelow : ∀ b,
        opened.count (base ++ [.key k, .item front.length] ++ b) = inner.items b := by
      intro b
      rw [List.append_assoc, hopened]
      refine (items_of_lookup h (.item front.length :: b)).trans ?_
      rw [Value.items_item, List.getElem?_concat_length]
      exact items_origin origin inner b
    exact place_cons_eq hinner.path_ne_nil henter (ih hbelow)

end Entries

namespace Document

variable {d d' : Document} {st : Statement} {sts : List Statement} {c : Context}

/-- The path of a header is that to its table, and the name of the table. -/
theorem dropLast_append_getLastD (path : List String) (h : path ≠ []) :
    path.dropLast ++ [path.getLastD ""] = path := by
  rw [List.getLastD_eq_getLast?, List.getLast?_eq_some_getLast h]
  exact List.dropLast_append_getLast h

/-- A statement makes the document grow by its value. -/
theorem grows_of_carryOut (hpath : st.path ≠ []) (h : d.carryOut st = some d') :
    d'.current = st.currentAfter d.current ∧
      ∃ a, Entries.Grows st.opens st.value d.root (st.pathFrom d.current) a d'.root := by
  cases st with
  | pair path v =>
    obtain ⟨root, hroot, heq⟩ := Option.bind_eq_some_iff.1 h
    cases heq
    exact ⟨rfl, Entries.grows_atHeader (fun _ _ => Entries.grows_assignFrom) hroot⟩
  | table path =>
    obtain ⟨root, hroot, heq⟩ := Option.bind_eq_some_iff.1 h
    cases heq
    have hgrows := Entries.grows_atHeader (fun _ _ => Entries.grows_openTable) hroot
    rw [dropLast_append_getLastD path hpath] at hgrows
    exact ⟨rfl, hgrows⟩
  | item path =>
    obtain ⟨root, hroot, heq⟩ := Option.bind_eq_some_iff.1 h
    cases heq
    have hgrows := Entries.grows_atHeader (fun _ _ => Entries.grows_openItem) hroot
    rw [dropLast_append_getLastD path hpath] at hgrows
    exact ⟨rfl, hgrows⟩

/-- The context of a document: its header, and its arrays once for every item. -/
structure Tracks (c : Context) (d : Document) : Prop where
  opened : ∀ a, c.opened.count a = d.root.items a
  current : c.current = d.current

theorem sound_table : Statement.Sound (.table .header []) :=
  ⟨Entries.tidy_nil, Entries.items_empty⟩

theorem sound_value (h : st.Has Statement.Sound) : Statement.Sound st.value := by
  cases st with
  | pair path v => exact h
  | table path => exact sound_table
  | item path => exact sound_table

/-- What one statement does. -/
theorem step (hpath : st.path ≠ []) (hsound : st.Has Statement.Sound) (htracks : Tracks c d)
    (h : d.carryOut st = some d') :
    Tracks (c.after st) d' ∧
      (∀ a s, d'.root.seen a = some s ↔
        d.root.seen a = some s ∨ Entries.Puts st.value (c.address st) a s) ∧
      (d.root.Tidy → d'.root.Tidy) := by
  obtain ⟨hcurrent, a, hgrows⟩ := grows_of_carryOut hpath h
  obtain ⟨htidy, hitems⟩ := sound_value hsound
  have ha : c.address st = a := by
    unfold Context.address
    rw [htracks.current]
    exact hgrows.place_eq htracks.opened
  refine ⟨⟨fun b => ?_, ?_⟩, ?_, hgrows.tidy htidy⟩
  · unfold Context.after
    rw [ha, hgrows.items_eq hitems b, ← htracks.opened b]
    cases st.opens with
    | false => exact (Nat.add_zero _).symm
    | true =>
      rw [if_pos rfl, List.count_cons]
      unfold Entries.opening
      by_cases hb : b = a.dropLast
      · simp [hb]
      · simp [hb, Ne.symm hb]
  · rw [hcurrent, ← htracks.current]
    rfl
  · rw [ha]
    exact hgrows.seen_iff

/-- What all statements do. -/
theorem seen_run (hpath : ∀ st ∈ sts, st.path ≠ [])
    (hsound : ∀ st ∈ sts, st.Has Statement.Sound) (htracks : Tracks c d)
    (h : d.run sts = some d') :
    (∀ a s, d'.root.seen a = some s ↔
      d.root.seen a = some s ∨ ∃ p ∈ c.tell sts, Entries.Puts p.2 p.1 a s) ∧
      (d.root.Tidy → d'.root.Tidy) := by
  induction sts generalizing c d with
  | nil =>
    cases h
    exact ⟨fun a s => by simp [Context.tell], id⟩
  | cons st sts ih =>
    obtain ⟨hst, hpath⟩ := List.forall_mem_cons.1 hpath
    obtain ⟨hst', hsound⟩ := List.forall_mem_cons.1 hsound
    obtain ⟨d₁, hfirst, hrest⟩ := Option.bind_eq_some_iff.1
      (show (d.carryOut st).bind (·.run sts) = some d' from h)
    obtain ⟨htracks₁, hseen, htidy⟩ := step hst hst' htracks hfirst
    obtain ⟨hseen', htidy'⟩ := ih hpath hsound htracks₁ hrest
    refine ⟨fun a s => ?_, htidy' ∘ htidy⟩
    rw [hseen' a s, hseen a s, or_assoc, Context.tell]
    simp only [List.mem_cons, exists_eq_or_imp]

end Document

/-! ## Texts -/

theorem shape_of_readScalar {s r : List Char} {v : Value} (h : readScalar s = some (v, r)) :
    v.shape = .leaf v := by
  unfold readScalar at h
  split at h
  · cases h
    rfl
  · split at h <;> cases h <;> rfl

/-- Nothing stands inside a value that is neither a table nor an array. -/
theorem sound_of_leaf {v : Value} (h : v.shape = .leaf v) : Statement.Sound v := by
  have hinside (e : Edge) (a : Address) : v.at? (e :: a) = none := by
    cases v with
    | array vs b => cases h
    | table origin es => cases h
    | _ => cases e <;> rfl
  constructor
  · intro a origin es ha
    match a with
    | [] =>
      cases ha
      cases h
    | e :: a =>
      rw [hinside] at ha
      cases ha
  · intro a
    unfold Value.items
    match a with
    | [] =>
      cases v with
      | array vs b => cases h
      | _ => rfl
    | e :: a => rw [hinside]

/-- A value that is read has no name twice, and no items of headers. -/
theorem holds_sound :
    Holds Statement.Sound fun es => es.Tidy ∧ ∀ a, es.items a = 0 where
  scalar _ _ _ h := sound_of_leaf (shape_of_readScalar h)
  array vs h := by
    refine ⟨Value.tidy_array_iff.2 fun v hv => (h v hv).1, fun a => ?_⟩
    match a with
    | [] => rfl
    | .key k :: a => rfl
    | .item i :: a =>
      rw [Value.items_item]
      cases hi : vs[i]? with
      | none => rfl
      | some v => exact (h v (List.mem_of_getElem? hi)).2 a
  table es h := ⟨Entries.tidy_origin.2 h.1, fun a => (Entries.items_origin _ es a).trans (h.2 a)⟩
  nil := ⟨Entries.tidy_nil, Entries.items_empty⟩
  assign es es' path v hes hv h := by
    obtain ⟨a, hgrows⟩ := Entries.grows_assignFrom h
    refine ⟨hgrows.tidy hv.1 hes.1, fun b => ?_⟩
    rw [hgrows.items_eq hv.2 b, hes.2 b, Entries.opening_false]

/-- What is said does not depend on the order in which values are told. -/
theorem Said.congr {told told' : List (Address × Value)} (h : ∀ p, p ∈ told ↔ p ∈ told')
    (a : Address) (s : Shape) : Said told a s ↔ Said told' a s := by
  unfold Said
  simp only [h]

theorem parse?_eq_some_iff {text : String} {es : Entries} :
    parse? text = some es ↔ ∃ sts d, readStatements text.toList = some sts ∧
      Document.empty.run sts = some d ∧ d.root = es := by
  unfold parse?
  simp only [Option.bind_eq_bind, Option.bind_eq_some_iff, Option.some.injEq]
  constructor
  · rintro ⟨sts, hsts, d, hd, rfl⟩
    exact ⟨sts, d, hsts, hd, rfl⟩
  · rintro ⟨sts, d, hsts, hd, rfl⟩
    exact ⟨sts, hsts, d, hd, rfl⟩

theorem seen_run_empty {sts : List Statement} {d : Document} {text : String}
    (hsts : readStatements text.toList = some sts) (hd : Document.empty.run sts = some d) :
    (∀ a s, d.root.seen a = some s ↔ Said (Context.start.tell sts) a s) ∧ d.root.Tidy := by
  have htracks : Document.Tracks Context.start Document.empty :=
    ⟨fun a => (Entries.items_empty a).symm, rfl⟩
  obtain ⟨hseen, htidy⟩ := Document.seen_run (path_ne_nil_of_readStatements hsts)
    (holds_sound.readStatements hsts) htracks hd
  refine ⟨fun a s => (hseen a s).trans ?_, htidy Entries.tidy_nil⟩
  exact or_congr_left Entries.seen_empty_iff

/-- **In the table that a text describes there stands what the text says.** -/
theorem seen_iff_asserts {text : String} {es : Entries} (h : parse? text = some es) (a : Address)
    (s : Shape) : es.seen a = some s ↔ Asserts text a s := by
  obtain ⟨sts, d, hsts, hd, rfl⟩ := parse?_eq_some_iff.1 h
  rw [(seen_run_empty hsts hd).1 a s]
  constructor
  · exact fun hsaid => ⟨sts, hsts, hsaid⟩
  · rintro ⟨sts', hsts', hsaid⟩
    cases hsts.symm.trans hsts'
    exact hsaid

theorem tidy_parse? {text : String} {es : Entries} (h : parse? text = some es) : es.Tidy := by
  obtain ⟨sts, d, hsts, hd, rfl⟩ := parse?_eq_some_iff.1 h
  exact (seen_run_empty hsts hd).2

end CommitGate.Toml

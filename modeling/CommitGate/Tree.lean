import CommitGate.Text.Raw

/-!
# Directory trees

The contents of a directory is a list of entries: files, symbolic links and directories, each with a
name. A place in the tree is the list of names that lead to it.

A file or link may have several names, at several places. Every entry carries the number of what it
is a name of, so that two entries are names of one file when their numbers are the same. A directory
has one name only.

Results:

* `find?_insert`: after an insertion the name stands for what was inserted, other names for what
  they did.
* `find?_remove`: after a removal the name stands for nothing, other names for what they did.
* `find?_revise`: after a change to a file its names stand for the changed file, and all else for
  what it did.
-/

namespace CommitGate

open Text (Octets)

/-- The contents of a directory, entry by entry. -/
inductive Tree where
  | empty
  | file (name : RawText) (node : Nat) (content : Octets) (mode : Nat) (rest : Tree)
  | link (name : RawText) (node : Nat) (target : RawText) (rest : Tree)
  | dir (name : RawText) (inner : Tree) (rest : Tree)
deriving DecidableEq, Repr, Inhabited

/-- What stands at a place. -/
inductive Entry where
  /-- A regular file with its number and its permission bits. -/
  | file (node : Nat) (content : Octets) (mode : Nat)
  /-- A symbolic link with its number. -/
  | link (node : Nat) (target : RawText)
  | dir (inner : Tree)
deriving DecidableEq, Repr

namespace Entry

/-- The permission bits of a new file. -/
def plainMode : Nat := 0o644

/-- The permission bits of an executable file. -/
def scriptMode : Nat := 0o755

/-- A file that may be executed by somebody. -/
def isExecutable : Entry → Bool
  | .file _ _ mode => mode &&& 0o111 != 0
  | _ => false

/-- The number of a file or link. -/
def node? : Entry → Option Nat
  | .file node _ _ | .link node _ => some node
  | .dir _ => none

end Entry

namespace Tree

/-- The tree with one entry in front. -/
def cons (name : RawText) : Entry → Tree → Tree
  | .file node content mode, rest => .file name node content mode rest
  | .link node target, rest => .link name node target rest
  | .dir inner, rest => .dir name inner rest

/-- What the name stands for. -/
def find? : Tree → RawText → Option Entry
  | .empty, _ => none
  | .file n k c m r, s => if n = s then some (.file k c m) else r.find? s
  | .link n k g r, s => if n = s then some (.link k g) else r.find? s
  | .dir n d r, s => if n = s then some (.dir d) else r.find? s

/-- The names of the entries, in the order of the tree. -/
def names : Tree → List RawText
  | .empty => []
  | .file n _ _ _ r => n :: r.names
  | .link n _ _ r => n :: r.names
  | .dir n _ r => n :: r.names

/-- The tree with the name standing for `e`, in its old position or at the end. -/
def insert : Tree → RawText → Entry → Tree
  | .empty, s, e => cons s e .empty
  | .file n k c m r, s, e => if n = s then cons s e r else .file n k c m (r.insert s e)
  | .link n k g r, s, e => if n = s then cons s e r else .link n k g (r.insert s e)
  | .dir n d r, s, e => if n = s then cons s e r else .dir n d (r.insert s e)

/-- The tree without the entries of that name. -/
def remove : Tree → RawText → Tree
  | .empty, _ => .empty
  | .file n k c m r, s => if n = s then r.remove s else .file n k c m (r.remove s)
  | .link n k g r, s => if n = s then r.remove s else .link n k g (r.remove s)
  | .dir n d r, s => if n = s then r.remove s else .dir n d (r.remove s)

/-! ## Places -/

/-- What stands at a place: the tree itself at the empty one. No link is followed. -/
def get? : Tree → List RawText → Option Entry
  | t, [] => some (.dir t)
  | t, [n] => t.find? n
  | t, n :: r =>
    match t.find? n with
    | some (.dir u) => u.get? r
    | _ => none

/-- The tree with `e` at a place whose parent is a directory; otherwise the tree as it is. -/
def put : Tree → List RawText → Entry → Tree
  | t, [], _ => t
  | t, [n], e => t.insert n e
  | t, n :: r, e =>
    match t.find? n with
    | some (.dir u) => t.insert n (.dir (u.put r e))
    | _ => t

/-- The tree without what stands at a place, and without all below it. -/
def erase : Tree → List RawText → Tree
  | t, [] => t
  | t, [n] => t.remove n
  | t, n :: r =>
    match t.find? n with
    | some (.dir u) => t.insert n (.dir (u.erase r))
    | _ => t

/-! ## Files with several names -/

/-- A number that no file or link of the tree has, nor any greater one. -/
def freshNode : Tree → Nat
  | .empty => 0
  | .file _ k _ _ r => max (k + 1) r.freshNode
  | .link _ k _ r => max (k + 1) r.freshNode
  | .dir _ d r => max d.freshNode r.freshNode

/-- The tree with another content and other permission bits for one file, under all its names. -/
def revise (node : Nat) (content : Octets → Octets) (mode : Nat → Nat) : Tree → Tree
  | .empty => .empty
  | .file n k c m r =>
    if k = node then .file n k (content c) (mode m) (revise node content mode r)
    else .file n k c m (revise node content mode r)
  | .link n k g r => .link n k g (revise node content mode r)
  | .dir n d r => .dir n (revise node content mode d) (revise node content mode r)

end Tree

/-- What a change to one file makes of an entry. -/
def Entry.revise (node : Nat) (content : Octets → Octets) (mode : Nat → Nat) : Entry → Entry
  | .file k c m => if k = node then .file k (content c) (mode m) else .file k c m
  | .link k g => .link k g
  | .dir d => .dir (d.revise node content mode)

namespace Tree

/-! ## One name -/

theorem find?_cons (t : Tree) (s : RawText) (e : Entry) (x : RawText) :
    (cons s e t).find? x = if s = x then some e else t.find? x := by
  cases e <;> rfl

/-- Two entries of different names are found alike in either order. -/
theorem ite_name_comm {n s : RawText} (hn : n ≠ s) (x : RawText) (a b r : Option Entry) :
    (if n = x then a else if s = x then b else r) =
      if s = x then b else if n = x then a else r := by
  by_cases hx : n = x
  · rw [if_pos hx, if_pos hx, if_neg fun hs : s = x => hn (hx.trans hs.symm)]
  · rw [if_neg hx, if_neg hx]

/-- An entry behind another of the same name is not found. -/
theorem ite_name_hidden {n s : RawText} (hn : n = s) (x : RawText) (a b r : Option Entry) :
    (if s = x then b else if n = x then a else r) = if s = x then b else r := by
  by_cases hx : s = x
  · rw [if_pos hx, if_pos hx]
  · rw [if_neg hx, if_neg hx, if_neg fun hnx : n = x => hx (hn.symm.trans hnx)]

theorem find?_insert (t : Tree) (s : RawText) (e : Entry) (x : RawText) :
    (t.insert s e).find? x = if s = x then some e else t.find? x := by
  induction t with
  | empty => rw [insert, find?_cons]
  | file n k c m r ih | link n k g r ih | dir n d r _ ih =>
    by_cases hn : n = s
    · rw [insert, if_pos hn, find?_cons, find?, ite_name_hidden hn]
    · rw [insert, if_neg hn, find?, ih, find?, ite_name_comm hn]

theorem find?_remove (t : Tree) (s x : RawText) :
    (t.remove s).find? x = if s = x then none else t.find? x := by
  induction t with
  | empty => rw [remove, find?, ite_self]
  | file n k c m r ih | link n k g r ih | dir n d r _ ih =>
    by_cases hn : n = s
    · rw [remove, if_pos hn, ih, find?, ite_name_hidden hn]
    · rw [remove, if_neg hn, find?, ih, find?, ite_name_comm hn]

theorem find?_revise (node : Nat) (content : Octets → Octets) (mode : Nat → Nat) (t : Tree)
    (x : RawText) :
    (t.revise node content mode).find? x =
      (t.find? x).map (Entry.revise node content mode) := by
  induction t with
  | empty => rfl
  | file n k c m r ih =>
    by_cases hk : k = node <;> by_cases hn : n = x <;>
      simp [revise, find?, Entry.revise, hk, hn, ih]
  | link n k g r ih => by_cases hn : n = x <;> simp [revise, find?, Entry.revise, hn, ih]
  | dir n d r _ ih => by_cases hn : n = x <;> simp [revise, find?, Entry.revise, hn, ih]

end Tree

end CommitGate

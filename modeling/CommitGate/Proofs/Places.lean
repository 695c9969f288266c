import CommitGate.Collect
import CommitGate.Config.Location
import CommitGate.Proofs.Collect
import CommitGate.Run
import CommitGate.Shell.Run
import Mathlib.Data.List.Infix

/-!
# Places and absolute paths

The absolute path of a place spells its names, so that it leads back to the place, goes on to the
places below it and has the absolute path of the place above it as its parent. What an absolute path
leads to does not depend on the working directory.

Results:

* `absolute_concat`, `parent?_absolute`, `ancestors_absolute`: going down and up.
* `locate_absolute`: the absolute path of a place leads there.
* `locate_workingIn`: an absolute path leads to the same place from every working directory.
-/

namespace CommitGate

namespace Path

theorem below_concat (p : Path) (names : List RawText) (n : RawText) :
    p.below (names ++ [n]) = (p.below names).child n :=
  List.foldl_concat ..

/-- What is joined to an absolute path is absolute. -/
theorem isAbsolute_join {p : Path} (hp : p.isAbsolute = true) (q : Path) :
    (p.join q).isAbsolute = true := by
  simp only [isAbsolute, decide_eq_true_eq] at hp
  rw [join]
  split
  · assumption
  · dsimp only
    split <;> simp [isAbsolute, hp]

/-- Names are no idle pieces. -/
theorem dropIdle_names {names : List RawText} (hn : ∀ n ∈ names, IsName n) :
    dropIdle (names.map RawText.octets) = names.map RawText.octets := by
  rw [dropIdle, List.dropWhile_eq_self_iff.2, List.reverse_reverse]
  intro hlength
  have hmem := List.getElem_mem hlength
  rw [List.mem_reverse, List.mem_map] at hmem
  obtain ⟨n, hmem, hlast⟩ := hmem
  rw [← hlast]
  simp [(hn n hmem).1, (hn n hmem).2.1]

end Path

namespace Host

/-! ## The absolute path of a place -/

theorem octets_absolute (place : List RawText) :
    (absolute place).spelling.octets =
      Path.slash :: [Path.slash].intercalate (place.map RawText.octets) :=
  rfl

theorem isAbsolute_absolute (place : List RawText) : (absolute place).isAbsolute = true := by
  simp [Path.isAbsolute, octets_absolute]

theorem octets_absolute_concat (place : List RawText) (n : RawText) :
    (absolute (place ++ [n])).spelling.octets =
      (if place = [] then [] else (absolute place).spelling.octets) ++ Path.slash :: n.octets := by
  by_cases h : place = []
  · simp [h, absolute]
  · rw [if_neg h, octets_absolute, octets_absolute, List.map_append,
      List.map_singleton, Text.intercalate_concat_of_ne_nil _ _ (by simpa using h)]
    simp

variable {place : List RawText} {n : RawText}

theorem absolute_concat (hplace : ∀ m ∈ place, IsName m) (hn : IsName n) :
    absolute (place ++ [n]) = (absolute place).child n := by
  have hrelative : (⟨n⟩ : Path).isAbsolute = false := by
    simp only [Path.isAbsolute, decide_eq_false_iff_not]
    exact fun h => hn.2.2.2.1 (List.mem_of_mem_head? (by simp [h]))
  rw [Path.child, Path.join, hrelative, if_neg Bool.false_ne_true]
  rcases List.eq_nil_or_concat place with rfl | ⟨init, m, rfl⟩
  · rw [if_pos (by simp [absolute])]
    simp [absolute]
  · rw [List.concat_eq_append] at hplace ⊢
    have hm : IsName m := hplace m (by simp)
    have hlast : (absolute (init ++ [m])).spelling.octets.getLast? ≠ some Path.slash := by
      rw [octets_absolute_concat]
      exact getLast?_slash_name hm _
    have hnonempty : (absolute (init ++ [m])).spelling.octets.getLast? ≠ none := by
      simp [octets_absolute]
    rw [if_neg (by simp only [hlast, hnonempty, or_self, not_false_eq_true])]
    refine Path.ext (RawText.ext ?_)
    rw [octets_absolute_concat, if_neg (by simp)]

/-- The absolute path of a place goes down to it from the root. -/
theorem absolute_eq_below (hplace : ∀ m ∈ place, IsName m) :
    absolute place = (⟨"/"⟩ : Path).below place := by
  induction place using List.reverseRecOn with
  | nil => rfl
  | append_singleton place n ih =>
    rw [List.forall_mem_append, List.forall_mem_singleton] at hplace
    rw [Path.below_concat, ← ih hplace.1, absolute_concat hplace.1 hplace.2]

/-! ## Going up -/

theorem parent?_root : (absolute []).parent? = none := by decide

theorem parent?_absolute (hplace : ∀ m ∈ place, IsName m) (hn : IsName n) :
    (absolute (place ++ [n])).parent? = some (absolute place) := by
  have hnames : ∀ m ∈ place ++ [n], IsName m := by
    rw [List.forall_mem_append, List.forall_mem_singleton]
    exact ⟨hplace, hn⟩
  have hpieces : Path.slashPieces ([Path.slash].intercalate ((place ++ [n]).map RawText.octets)) =
      (place ++ [n]).map RawText.octets := by
    refine Path.slashPieces_intercalate (by simp) fun piece hmem => ?_
    obtain ⟨m, hm, rfl⟩ := List.mem_map.1 hmem
    exact (hnames m hm).2.2.2.1
  rw [Path.parent?, octets_absolute]
  simp only [List.head?_cons, if_true, List.tail_cons, hpieces, Path.dropIdle_names hnames]
  rw [List.map_append, List.map_singleton]
  split
  · next h => simp at h
  · rw [List.dropLast_concat, Path.dropIdle_names hplace, List.singleton_append, ← octets_absolute]

/-- The spelling of a place has an octet for each of its names at least. -/
theorem length_le_length_absolute (place : List RawText) :
    place.length ≤ (absolute place).spelling.octets.length := by
  induction place using List.reverseRecOn with
  | nil => exact Nat.zero_le _
  | append_singleton place n ih =>
    rw [octets_absolute_concat, List.length_append, List.length_append, List.length_cons]
    by_cases h : place = []
    · simp [h]
    · rw [if_neg h]
      simp
      omega

/-- Above a place stand its initial parts, the longest first. -/
theorem ancestors_absolute (hplace : ∀ m ∈ place, IsName m) :
    (absolute place).ancestors = place.inits.reverse.map absolute := by
  rw [Path.ancestors]
  generalize hfuel : (absolute place).spelling.octets.length = fuel
  have hle : place.length ≤ fuel := hfuel ▸ length_le_length_absolute place
  clear hfuel
  induction place using List.reverseRecOn generalizing fuel with
  | nil => cases fuel <;> simp [Path.ancestorsUpTo, parent?_root]
  | append_singleton place n ih =>
    rw [List.forall_mem_append, List.forall_mem_singleton] at hplace
    rw [List.length_append, List.length_singleton] at hle
    obtain ⟨fuel, rfl⟩ := Nat.exists_eq_succ_of_ne_zero (by omega : fuel ≠ 0)
    rw [Path.ancestorsUpTo, parent?_absolute hplace.1 hplace.2, Option.elim_some,
      ih hplace.1 fuel (by omega)]
    simp [List.inits_append]

/-! ## Leading there -/

/-- Above a directory stand directories. -/
theorem exists_dir_of_prefix {t u : Tree} {above : List RawText}
    (hplace : t.get? place = some (.dir u)) (habove : above <+: place) :
    ∃ v, t.get? above = some (.dir v) := by
  obtain ⟨rest, rfl⟩ := habove
  by_cases hrest : rest = []
  · subst hrest
    rw [List.append_nil] at hplace
    exact ⟨u, hplace⟩
  · exact Tree.exists_dir_of_get?_append hplace hrest

variable {h : Host}

/-- The absolute path of a place leads there, when something stands at the place. -/
theorem locate_absolute (wf : h.tree.Proper) {e : Entry} (hplace : h.tree.get? place = some e)
    {last : Bool} (hlast : last = true → ∀ k g, e ≠ .link k g) :
    h.locate last (absolute place) = .ok place := by
  have hnames := (wf.get? hplace).1
  by_cases hne : place = []
  · subst hne
    refine locate_eq_ok_iff.2 ⟨by simp [octets_absolute], by decide, ?_⟩
    exact .slash .done
  have hroot : (⟨"/"⟩ : Path).spelling.octets ≠ [] := by decide
  have hlead : Leads h.tree false 40 [] (place.map .name) place := by
    refine leads_names (u := h.tree) (by rfl) hne (fun k _ hk => ?_) 40
    have hsplit : h.tree.get? (place.take k ++ place.drop k) = some e := by
      rwa [List.take_append_drop]
    exact Tree.exists_dir_of_get?_append hsplit (by simpa using hk)
  have hlead' : Leads h.tree last 40 [] (place.map .name) place := by
    cases last with
    | false => exact hlead
    | true =>
      exact hlead.follow fun k g hg => hlast rfl k g (Option.some.inj (hplace.symm.trans hg))
  have hgoes := goesOn_below hroot hnames hne
  rw [absolute_eq_below hnames]
  refine locate_eq_ok_iff.2 ⟨hgoes.nonempty, fun hc => ?_, ?_⟩
  · exact absurd (hgoes.nul.1 hc) (by decide)
  · rw [origin_below hroot hnames hne, steps_below hroot hnames hne]
    exact hlead'

theorem canonical_absolute (wf : h.tree.Proper) {u : Tree}
    (hplace : h.tree.get? place = some (.dir u)) : h.canonical (absolute place) = .ok place := by
  rw [canonical, locate_absolute wf hplace (by simp)]
  simp [bind, Except.bind, hplace]

/-! ## Other working directories -/

/-- The host as it is seen from another working directory. -/
def workingIn (h : Host) (place : List RawText) : Host :=
  { h with directory := place }

@[simp] theorem tree_workingIn (h : Host) (d : List RawText) : (h.workingIn d).tree = h.tree := rfl

@[simp] theorem value?_workingIn (h : Host) (d : List RawText) (name : String) :
    (h.workingIn d).value? name = h.value? name := rfl

@[simp] theorem workingPath_workingIn (h : Host) (d : List RawText) :
    (h.workingIn d).workingPath = absolute d := rfl

section Absolute

variable {p : Path} (hp : p.isAbsolute = true) (d : List RawText)

include hp

/-- **An absolute path leads to the same place from every working directory.** -/
theorem locate_workingIn (last : Bool) : (h.workingIn d).locate last p = h.locate last p := by
  have hhead : p.spelling.octets.head? = some Path.slash := by simpa [Path.isAbsolute] using hp
  simp only [locate, origin, hhead, if_true, tree_workingIn]

theorem entry_workingIn : (h.workingIn d).entry p = h.entry p := by
  rw [entry, entry, locate_workingIn hp, tree_workingIn]

theorem ownEntry_workingIn : (h.workingIn d).ownEntry p = h.ownEntry p := by
  rw [ownEntry, ownEntry, locate_workingIn hp, tree_workingIn]

theorem canonical_workingIn : (h.workingIn d).canonical p = h.canonical p := by
  rw [canonical, canonical, locate_workingIn hp, tree_workingIn]

theorem isFile_workingIn : (h.workingIn d).isFile p = h.isFile p := by
  rw [isFile, isFile, entry_workingIn hp]

theorem listing_workingIn : (h.workingIn d).listing p = h.listing p := by
  rw [listing, listing, entry_workingIn hp]

theorem readFile_workingIn : (h.workingIn d).readFile p = h.readFile p := by
  rw [readFile, readFile, entry_workingIn hp]

theorem readText_workingIn : (h.workingIn d).readText p = h.readText p := by
  rw [readText, readText, readFile_workingIn hp]

theorem collect_workingIn (s : Selection) :
    (h.workingIn d).collect s p = h.collect s p := by
  rw [collect, collect, visits, visits, ownEntry_workingIn hp, entry_workingIn hp]

theorem projectName_workingIn : (h.workingIn d).projectName p = h.projectName p := by
  rw [projectName, projectName, canonical_workingIn hp]

/-- A process that is started in an absolute directory does not know where the other one works. -/
theorem startIn_workingIn : (h.workingIn d).startIn p = h.startIn p := by
  rw [startIn, startIn, enter, enter, canonical_workingIn hp]
  rfl

/-- A command that is run in an absolute directory comes to the same result. -/
theorem runCommand_workingIn (limit : Option Nat) (command : String) :
    ((h.workingIn d).runCommand limit command p).1 = (h.runCommand limit command p).1 := by
  rw [runCommand, runCommand, startIn_workingIn hp]
  split
  · rfl
  · split <;> rfl

end Absolute

end Host

end CommitGate

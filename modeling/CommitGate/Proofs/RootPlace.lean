import CommitGate.Proofs.JoinedPath
import CommitGate.Proofs.ShownConfig
import CommitGate.Proofs.WalkOrder

/-!
# Where the root of a project is

A relative root is taken from the directory of the configuration file. What is collected there
depends on where the way to the root ends, so it is the same for every spelling of that directory,
and for none: a root beside a bare file name goes on from the working directory, as it would go on
from its path.

**Deviation from the purpose.** Only the empty root is no way at all when nothing stands before it.
With a bare file name it is looked for as the empty path, which leads nowhere, and the scan fails
where the directory of the file is meant (`empty_root_lost`).

Results:

* `Walk.exists_found`: the walk meets the same files below every path to a directory.
* `Host.collected_alike`: what is collected from two roots that lead to the same place.
* `root_from_directory`: the root of a configuration is in the directory of its file, but for an
  empty one and a bare file name.
-/

namespace CommitGate

open Text (Octets)

/-! ## The same files below two paths -/

/-- A file that the walk finds, at some names below where it starts. -/
structure Found where
  names : List RawText
  content : Octets

namespace Found

/-- The file as the walk meets it when it starts at a path. -/
def visit (p : Path) (f : Found) : Visit :=
  ⟨p.below f.names, f.content⟩

/-- The file stands in the directory or below it, under names that entries may have. -/
structure Below (f : Found) : Prop where
  names : ∀ n ∈ f.names, IsName n
  inside : f.names ≠ []

end Found

namespace Tree

variable {s : Selection} {p : Path} {es : List (RawText × Entry)} {met : List Visit}

/-- **The walk meets the same files below every path.** -/
theorem Walk.exists_found (h : Walk s p es met) (hfit : Fit es) :
    ∃ found : List Found, (∀ f ∈ found, f.Below) ∧
      ∀ q, Walk s q es (found.map (Found.visit q)) := by
  induction h with
  | done => exact ⟨[], by simp, fun q => .done⟩
  | passed hkeep _ ih =>
    obtain ⟨found, hbelow, hwalk⟩ := ih hfit.tail
    exact ⟨found, hbelow, fun q => .passed hkeep (hwalk q)⟩
  | link _ ih =>
    obtain ⟨found, hbelow, hwalk⟩ := ih hfit.tail
    exact ⟨found, hbelow, fun q => .link (hwalk q)⟩
  | @file _ n _ content _ _ _ hkeep _ ih =>
    obtain ⟨found, hbelow, hwalk⟩ := ih hfit.tail
    have hn := (hfit n _ List.mem_cons_self).1
    refine ⟨⟨[n], content⟩ :: found, ?_, fun q => .file hkeep (hwalk q)⟩
    exact List.forall_mem_cons.2 ⟨⟨by simpa using hn, by simp⟩, hbelow⟩
  | @dir _ n u _ _ _ _ hkeep listing _ _ ihin ih =>
    obtain ⟨hn, hu⟩ := hfit n _ List.mem_cons_self
    obtain ⟨inside, hinside, hwalkin⟩ := ihin (listing.fit (hu u rfl))
    obtain ⟨found, hbelow, hwalk⟩ := ih hfit.tail
    refine ⟨inside.map (fun f => ⟨n :: f.names, f.content⟩) ++ found, ?_, fun q => ?_⟩
    · rintro f hf
      rcases List.mem_append.1 hf with hf | hf
      · obtain ⟨g, hg, rfl⟩ := List.mem_map.1 hf
        exact ⟨List.forall_mem_cons.2 ⟨hn, (hinside g hg).names⟩, by simp⟩
      · exact hbelow f hf
    · rw [List.map_append, List.map_map]
      exact .dir hkeep listing (hwalkin (q.child n)) (hwalk q)

theorem Proper.exists_visits {t : Tree} (ht : t.Proper) (s : Selection) :
    ∃ found : List Found, (∀ f ∈ found, f.Below) ∧
      ∀ q, t.visits s q = found.map (Found.visit q) := by
  have hwalk (q : Path) : Walk s q (sortNamed t.entries) (t.visits s q) := visits_walk ht
  obtain ⟨found, hbelow, hfound⟩ := (hwalk ⟨""⟩).exists_found (ht.listing.fit ht)
  exact ⟨found, hbelow, fun q => (hwalk q).unique (hfound q)⟩

end Tree

/-- Below a path, the last name is the name of the file. -/
theorem Path.fileName?_below (p : Path) {names : List RawText} (hn : ∀ n ∈ names, IsName n)
    (hne : names ≠ []) : (p.below names).fileName? = names.getLast? := by
  obtain ⟨front, n, rfl⟩ := (List.eq_nil_or_concat names).resolve_left hne
  rw [List.concat_eq_append] at hn ⊢
  rw [fileName?, components_below p hn, List.map_append, ← List.append_assoc]
  simp

/-- What is collected of the files that a walk from `q` finds. -/
theorem Found.files_visit (s : Selection) (q : Path) (found : List Found) :
    ((found.map (visit q)).filter fun v => s.allows v.path).map Visit.file =
      (found.filter fun f => s.allows (q.below f.names)).map
        fun f => (q.below f.names, Host.contentText f.content) := by
  rw [List.filter_map, List.map_map]
  rfl

theorem Selection.allows_congr {p q : Path} (s : Selection) (h : p.fileName? = q.fileName?) :
    s.allows p = s.allows q := by
  rw [allows, allows, h]

/-! ## Collecting from two roots -/

/-- From two roots the same files are collected, each below its root, or there is a failure at the
root with the same cause. -/
inductive CollectedAlike (root root' : Path) :
    Except Failure FileSet → Except Failure FileSet → Prop where
  | files {files files' : FileSet} (found : List (List RawText × String))
      (names : ∀ f ∈ found, ∀ n ∈ f.1, IsName n)
      (entries : files.entries = found.map fun f => (root.below f.1, f.2))
      (entries' : files'.entries = found.map fun f => (root'.below f.1, f.2)) :
      CollectedAlike root root' (.ok files) (.ok files')
  | failed (cause : String) :
      CollectedAlike root root' (.error (.walk root [cause])) (.error (.walk root' [cause]))

theorem CollectedAlike.exists_eq_error {root root' : Path} {e : Failure}
    {collected : Except Failure FileSet} (h : CollectedAlike root root' (.error e) collected) :
    ∃ cause, collected = .error (.walk root' [cause]) := by
  cases h with
  | failed cause => exact ⟨cause, rfl⟩

namespace Host

variable {h : Host} {s : Selection} {root root' : Path} {met : List Visit}

/-- The files that are met and allowed are collected as they come. -/
theorem exists_collect_of_visits (wf : h.tree.Proper) (hmet : h.visits s root = .ok met) :
    ∃ files, h.collect s root = .ok files ∧
      files.entries = (met.filter fun v => s.allows v.path).map Visit.file := by
  have hbefore : met.Pairwise fun v w => v.path.order w.path = .lt :=
    ((walked_of_visits wf hmet).pairwise wf).imp Path.order_eq_lt_iff.2
  have hentries : (FileSet.ofList ((met.filter fun v => s.allows v.path).map Visit.file)).entries =
      (met.filter fun v => s.allows v.path).map Visit.file :=
    FileSet.entries_ofList_of_pairwise (List.pairwise_map.2 (hbefore.filter _))
  refine ⟨_, ?_, hentries⟩
  rw [collect, hmet]
  rfl

section Alike

variable (hlocate : ∀ last, h.locate last root = h.locate last root')
  (hname : ∀ k c m, h.ownEntry root = .ok (.file k c m) → root.fileName? = root'.fileName?)

include hlocate hname

/-- Roots that lead to the same place are walked alike. -/
theorem visits_alike (wf : h.tree.Proper) (s : Selection) :
    (∃ cause, h.visits s root = .error (.walk root [cause]) ∧
      h.visits s root' = .error (.walk root' [cause])) ∨
    ∃ found : List Found, (∀ f ∈ found, (∀ n ∈ f.names, IsName n) ∧
        s.allows (root.below f.names) = s.allows (root'.below f.names)) ∧
      h.visits s root = .ok (found.map (Found.visit root)) ∧
      h.visits s root' = .ok (found.map (Found.visit root')) := by
  have hown : h.ownEntry root' = h.ownEntry root := by rw [ownEntry, ownEntry, hlocate]
  have hentry : h.entry root' = h.entry root := by rw [entry, entry, hlocate]
  have hdir : ∀ t, h.entry root = .ok (.dir t) →
      ∃ found : List Found, (∀ f ∈ found, (∀ n ∈ f.names, IsName n) ∧
        s.allows (root.below f.names) = s.allows (root'.below f.names)) ∧
      t.visits s root = found.map (Found.visit root) ∧
      t.visits s root' = found.map (Found.visit root') := by
    intro t ht
    obtain ⟨place, -, hget⟩ := entry_eq_ok_iff.1 ht
    obtain ⟨found, hbelow, hfound⟩ := ((wf.get? hget).2 t rfl).exists_visits s
    refine ⟨found, fun f hf => ⟨(hbelow f hf).names, s.allows_congr ?_⟩, hfound root, hfound root'⟩
    rw [Path.fileName?_below root (hbelow f hf).names (hbelow f hf).inside,
      Path.fileName?_below root' (hbelow f hf).names (hbelow f hf).inside]
  rw [visits, visits, hown, hentry]
  cases own : h.ownEntry root with
  | error e => exact .inl ⟨e.text, rfl, rfl⟩
  | ok e =>
    cases e with
    | file node content mode =>
      have hallows := s.allows_congr (hname node content mode own)
      exact .inr ⟨[⟨[], content⟩], List.forall_mem_singleton.2 ⟨by simp, hallows⟩, rfl, rfl⟩
    | dir t =>
      obtain ⟨found, hfound, hmet, hmet'⟩ := hdir t (entry_of_ownEntry own (by simp))
      exact .inr ⟨found, hfound, congrArg _ hmet, congrArg _ hmet'⟩
    | link k g =>
      dsimp only
      cases leads : h.entry root with
      | error e => exact .inl ⟨e.text, rfl, rfl⟩
      | ok e =>
        cases e with
        | dir t =>
          obtain ⟨found, hfound, hmet, hmet'⟩ := hdir t leads
          exact .inr ⟨found, hfound, congrArg _ hmet, congrArg _ hmet'⟩
        | file k c m => exact .inr ⟨[], by simp, rfl, rfl⟩
        | link k g => exact .inr ⟨[], by simp, rfl, rfl⟩

/-- **Roots that lead to the same place are collected from alike.** -/
theorem collected_alike (wf : h.tree.Proper) (s : Selection) :
    CollectedAlike root root' (h.collect s root) (h.collect s root') := by
  rcases visits_alike hlocate hname wf s with ⟨cause, hfail, hfail'⟩ | ⟨found, hfound, hmet, hmet'⟩
  · rw [collect, collect, hfail, hfail']
    exact .failed cause
  · obtain ⟨files, hfiles, hentries⟩ := exists_collect_of_visits wf hmet
    obtain ⟨files', hfiles', hentries'⟩ := exists_collect_of_visits wf hmet'
    have hkept' : found.filter (fun f => s.allows (root'.below f.names)) =
        found.filter (fun f => s.allows (root.below f.names)) :=
      List.filter_congr fun f hf => (hfound f hf).2.symm
    rw [Found.files_visit] at hentries hentries'
    rw [hkept'] at hentries'
    rw [hfiles, hfiles']
    refine .files ((found.filter fun f => s.allows (root.below f.names)).map
      fun f => (f.names, contentText f.content)) ?_ ?_ ?_
    · exact List.forall_mem_map.2 fun f hf => (hfound f (List.mem_of_mem_filter hf)).1
    · rw [hentries, List.map_map]
      rfl
    · rw [hentries', List.map_map]
      rfl

end Alike

/-! ## Roots behind a directory -/

/-- The way to a root goes on from a place by the steps of a relative path, while so many links may
be followed. -/
structure GoesOnFrom (h : Host) (root r : Path) (k : Nat) (place : List RawText) : Prop where
  locate : ∀ last, h.locate last root = h.locateFrom last k place r
  ending : (steps root.spelling.octets).getLast? =
    (steps (Path.slash :: r.spelling.octets)).getLast?

variable {p r : Path} {k : Nat} {place : List RawText}

theorem Reaches.goesOnFrom_join (hp : h.Reaches p k place) (hr : r.isAbsolute = false) :
    h.GoesOnFrom (p.join r) r k place := by
  refine ⟨hp.locate_join hr, ?_⟩
  obtain ⟨a, hjoin, -⟩ := Path.exists_octets_join hp.nonempty hr
  rw [hjoin, steps_append_slash, List.getLast?_append_of_ne_nil _ (steps_slash_ne_nil _)]

theorem goesOnFrom_of_relative (hr : r.isAbsolute = false) (hne : r.spelling.octets ≠ []) :
    h.GoesOnFrom r r 40 h.directory := by
  refine ⟨locate_of_relative hr hne, ?_⟩
  rw [steps_slash_cons hne]

/-- **Roots that go on from a place in the same way are collected from alike.** -/
theorem GoesOnFrom.collected_alike (hroot : h.GoesOnFrom root r k place)
    (hroot' : h.GoesOnFrom root' r k place) (wf : h.tree.Proper) (hworking : h.Working)
    (s : Selection) : CollectedAlike root root' (h.collect s root) (h.collect s root') := by
  refine Host.collected_alike (fun last => ?_) (fun node content mode hown => ?_) wf s
  · rw [hroot.locate, hroot'.locate]
  · have hfile : h.entry root = .ok (.file node content mode) := entry_of_ownEntry hown (by simp)
    obtain ⟨n, hn⟩ := exists_name_of_file hworking hfile
    have hn' : (steps root'.spelling.octets).getLast? = some (.name n) := by
      rw [hroot'.ending, ← hroot.ending, hn]
    rw [fileName?_of_steps hn, fileName?_of_steps hn']

/-! ## The root of a configuration -/

/-- The empty path leads nowhere. -/
theorem collect_empty (h : Host) (s : Selection) :
    h.collect s ⟨""⟩ = .error (.walk ⟨""⟩ [Fault.notFound.text]) := by
  rfl

/-- From the working directory something can be collected. -/
theorem exists_collect_workingPath (wf : h.tree.Proper) (hworking : h.Working) (s : Selection) :
    ∃ files, h.collect s (h.workingPath.join ⟨""⟩) = .ok files := by
  have hrelative : (⟨""⟩ : Path).isAbsolute = false := by decide
  have hlocate : h.locate true (h.workingPath.join ⟨""⟩) = .ok h.directory := by
    rw [(reaches_workingPath wf hworking).locate_join hrelative]
    show resolveFrom h.tree true 40 h.directory [.slash] = _
    rw [resolveFrom_slash, resolveFrom_nil]
  obtain ⟨u, hu⟩ := hworking
  exact collect_of_pathExists (pathExists_iff.2 ⟨_, entry_eq_ok_iff.2 ⟨_, hlocate, hu⟩⟩)

/-- Without a slash in the path of its file, a configuration keeps its root. -/
theorem settledIn_of_not_mem {c : Config} (hp : Path.slash ∉ p.spelling.octets) :
    c.settledIn p = c := by
  rcases Config.settledIn_cases p c with hkept | ⟨directory, hparent, hne, -⟩
  · exact hkept
  · obtain ⟨piece, -, heq | ⟨-, heq⟩⟩ := Path.exists_parent? hparent hne
    · exact absurd (heq ▸ by simp) hp
    · exact absurd (heq ▸ by simp) hp

/-- The root goes on as it would in the directory of the file, if either is spelled. -/
theorem exists_goesOnFrom_settledIn (wf : h.tree.Proper) (hworking : h.Working) {c : Config}
    {node : Nat} {content : Octets} {mode : Nat}
    (hfile : h.entry p = .ok (.file node content mode))
    (hrelative : c.project.root.isAbsolute = false)
    (hsome : Path.slash ∈ p.spelling.octets ∨ c.project.root.spelling.octets ≠ []) :
    ∃ k place, h.GoesOnFrom (c.settledIn p).project.root c.project.root k place ∧
      h.GoesOnFrom ((h.directoryOf p).join c.project.root) c.project.root k place := by
  obtain ⟨n, hn, hname | ⟨a, hp⟩⟩ := exists_spelling_of_file hworking hfile
  · -- both go on from the working directory
    have hslash : Path.slash ∉ p.spelling.octets := hname ▸ hn.2.2.2.1
    rw [settledIn_of_not_mem hslash, directoryOf_of_not_mem hslash]
    exact ⟨_, _, goesOnFrom_of_relative hrelative (hsome.resolve_left hslash),
      (reaches_workingPath wf hworking).goesOnFrom_join hrelative⟩
  · -- both go on from what is above the file
    obtain ⟨above, k, place, hparent, habove, hfront⟩ := exists_reaches_parent? hfile hn hp
    rw [Config.settledIn_of_parent? hparent habove.nonempty hrelative, directoryOf_of_slash hn hp]
    exact ⟨k, place, habove.goesOnFrom_join hrelative, hfront.goesOnFrom_join hrelative⟩

/-- **The root is taken from the directory of the file.** For every file with a configuration that
loads, the root alone is changed. An absolute one is kept. From a relative one the same is collected
as from the root in the directory that the file is a name in, or there is the same failure, except
that an empty root beside a bare file name leads nowhere. -/
theorem root_from_directory [Toml.Diagnosis] (wf : h.tree.Proper) (hworking : h.Working)
    {loaded : Config} (hload : h.loadConfig p = .ok loaded) :
    let root := loaded.project.root
    let meant := (h.directoryOf p).join root
    ∃ c, h.effectiveConfig (some p) = .ok c ∧
      c = { loaded with project := { loaded.project with root := c.project.root } } ∧
      (∃ n, IsName n ∧ ∀ last, h.locate last ((h.directoryOf p).child n) = h.locate last p) ∧
      (root.isAbsolute = true → c.project.root = root) ∧
      (root.isAbsolute = false → Path.slash ∈ p.spelling.octets ∨ root.spelling.octets ≠ [] →
        ∀ s, CollectedAlike c.project.root meant (h.collect s c.project.root)
          (h.collect s meant)) ∧
      (Path.slash ∉ p.spelling.octets → root.spelling.octets = [] →
        ∀ s, h.collect s c.project.root = .error (.walk ⟨""⟩ [Fault.notFound.text]) ∧
          ∃ files, h.collect s meant = .ok files) := by
  intro root meant
  obtain ⟨text, hread, -⟩ := exists_readText_of_loadConfig hload
  obtain ⟨node, content, mode, hfile, -⟩ := readText_eq_ok_iff.1 hread
  have hsettled : h.effectiveConfig (some p) = .ok (loaded.settledIn p) :=
    settledConfig_eq_ok_iff.2 ⟨loaded, hload, rfl⟩
  refine ⟨loaded.settledIn p, hsettled, ?_, locate_child_directoryOf wf hworking hfile,
    fun habsolute => by rw [Config.settledIn_of_isAbsolute habsolute], ?_, ?_⟩
  · rcases Config.settledIn_cases p loaded with hsame | ⟨directory, -, -, hsame⟩ <;> rw [hsame]
  · intro hrelative hsome s
    obtain ⟨k, place, hroot, hmeant⟩ :=
      exists_goesOnFrom_settledIn wf hworking hfile hrelative hsome
    exact hroot.collected_alike hmeant wf hworking s
  · intro hslash hempty s
    have hroot : root = ⟨""⟩ := Path.ext (RawText.ext hempty)
    have hmeant : meant = h.workingPath.join ⟨""⟩ := by
      rw [← hroot, ← directoryOf_of_not_mem hslash]
    rw [settledIn_of_not_mem hslash, hmeant]
    refine ⟨?_, exists_collect_workingPath wf hworking s⟩
    rw [show loaded.project.root = ⟨""⟩ from hroot]
    exact collect_empty h s

attribute [local instance] Toml.Diagnosis.silent

/-- A project whose configuration, beside a directory with its sources, names a root. -/
def rootedProject (root : String) : Host :=
  ⟨.dir "work"
    (.file Config.fileName 0 (Text.encode ("[project]\nroot = \"" ++ root ++ "\"\n").toList)
      Entry.plainMode (.dir "src" (.file "a.php" 1 [0x31] Entry.plainMode .empty) .empty)) .empty,
    ["work"], []⟩

/-- The directory is spelled without the point at its end, and the same is collected. -/
theorem root_from_directory_rootedProject :
    ∃ c, (rootedProject "./src").effectiveConfig (some ⟨"..//work/./precommit-gate.toml"⟩) = .ok c ∧
      c = { project := { root := c.project.root } } ∧
      c.project.root = ⟨"..//work/./src"⟩ ∧
      ∀ s, CollectedAlike ⟨"..//work/./src"⟩ ⟨"..//work/././src"⟩
        ((rootedProject "./src").collect s ⟨"..//work/./src"⟩)
        ((rootedProject "./src").collect s ⟨"..//work/././src"⟩) := by
  have wf : (rootedProject "./src").tree.Proper := by decide +kernel
  have hload : (rootedProject "./src").loadConfig ⟨"..//work/./precommit-gate.toml"⟩ =
      .ok { project := { root := ⟨"./src"⟩ } } := by
    rfl
  have hmeant : ((rootedProject "./src").directoryOf ⟨"..//work/./precommit-gate.toml"⟩).join
      ⟨"./src"⟩ = ⟨"..//work/././src"⟩ := by
    decide +kernel
  obtain ⟨c, heffective, hc, -, -, halike, -⟩ := root_from_directory wf ⟨_, rfl⟩ hload
  have hsettled : (rootedProject "./src").effectiveConfig
      (some ⟨"..//work/./precommit-gate.toml"⟩) =
      .ok { project := { root := ⟨"..//work/./src"⟩ } } := by
    rfl
  obtain rfl := Except.ok.inj (heffective.symm.trans hsettled)
  refine ⟨_, heffective, hc, rfl, fun s => ?_⟩
  have hsame := halike (by decide) (.inl (by decide)) s
  rwa [hmeant] at hsame

/-- **An empty root is lost beside a bare file name.** Nothing is collected, although the directory
of the file is the working directory and its sources are there: with a point and a slash before the
name of the file they are collected. -/
theorem empty_root_lost :
    (rootedProject "").directoryOf ⟨"precommit-gate.toml"⟩ = ⟨"/work"⟩ ∧
    (∃ c, (rootedProject "").effectiveConfig (some ⟨"precommit-gate.toml"⟩) = .ok c ∧
      (rootedProject "").collect c.project.selection c.project.root =
        .error (.walk ⟨""⟩ ["No such file or directory (os error 2)"]) ∧
      ((rootedProject "").collect c.project.selection ⟨"/work/"⟩).map FileSet.paths =
        .ok [⟨"/work/src/a.php"⟩] ∧
      ¬ CollectedAlike c.project.root ⟨"/work/"⟩
        ((rootedProject "").collect c.project.selection c.project.root)
        ((rootedProject "").collect c.project.selection ⟨"/work/"⟩)) ∧
    ∃ c, (rootedProject "").effectiveConfig (some ⟨"./precommit-gate.toml"⟩) = .ok c ∧
      ((rootedProject "").collect c.project.selection c.project.root).map FileSet.paths =
        .ok [⟨"./src/a.php"⟩] := by
  have hfails : (rootedProject "").collect ⟨["php", "php5"], ["vendor"]⟩ ⟨""⟩ =
      .error (.walk ⟨""⟩ ["No such file or directory (os error 2)"]) := by
    rfl
  have hfound : ((rootedProject "").collect ⟨["php", "php5"], ["vendor"]⟩ ⟨"/work/"⟩).map
      FileSet.paths = .ok [⟨"/work/src/a.php"⟩] := by
    decide +kernel
  have hdiffer : ¬ CollectedAlike ⟨""⟩ ⟨"/work/"⟩
      ((rootedProject "").collect ⟨["php", "php5"], ["vendor"]⟩ ⟨""⟩)
      ((rootedProject "").collect ⟨["php", "php5"], ["vendor"]⟩ ⟨"/work/"⟩) := by
    rw [hfails]
    intro halike
    obtain ⟨cause, herror⟩ := halike.exists_eq_error
    rw [herror] at hfound
    cases hfound
  exact ⟨by decide +kernel,
    ⟨{ project := { root := ⟨""⟩ } }, by rfl, hfails, hfound, hdiffer⟩,
    { project := { root := ⟨"./"⟩ } }, by rfl, by decide +kernel⟩

end Host

end CommitGate

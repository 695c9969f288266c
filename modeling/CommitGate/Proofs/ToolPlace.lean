import CommitGate.Proofs.HookPlace
import CommitGate.Proofs.PathOrder
import CommitGate.Proofs.RunEffects
import CommitGate.Proofs.Ways
import CommitGate.Script
import CommitGate.Shell.Lookup
import CommitGate.Shell.Run

/-!
# Where the tool is looked for

The check of the toolchain first looks whether the tool is there, and then has a shell ask it for
its version. The shell is started in the directory of the project, while the look is taken from the
working directory of the process. A tool that is named by a relative path with a slash stands below
one of them and maybe not below the other: so it may count as missing although the shell would run
it, or be asked for although the shell finds nothing. A bare name and an absolute path mean the same
in both.

Results:

* `Leads.exists_name`: a way that leads to a file ends in a name.
* `isSome_findProgram?_iff`: the look finds what a shell in the working directory finds.
* `detect_in_working_directory`: when the tool counts as missing, and for which tools that is what a
  shell in the directory of the project would find.
* `tool_misplaced`: a tool that the shell would run, and that counts as missing.
-/

namespace CommitGate

open Text (Octets)

namespace Path

/-! ## The last piece of a spelling -/

theorem exists_last_slash {s : Octets} (h : slash ∈ s) :
    ∃ a b, s = a ++ slash :: b ∧ slash ∉ b := by
  obtain ⟨b, a, hrev, hb⟩ := List.eq_append_cons_of_mem (List.mem_reverse.2 h)
  refine ⟨a.reverse, b.reverse, ?_, by simpa using hb⟩
  rw [← List.reverse_reverse s, hrev]
  simp

/-- A joined path ends in the path that was joined. -/
theorem exists_spelling_join (p q : Path) :
    ∃ front, (p.join q).spelling.octets = front ++ q.spelling.octets := by
  rw [join]
  split
  · exact ⟨[], rfl⟩
  · dsimp only
    split
    · exact ⟨_, rfl⟩
    · exact ⟨p.spelling.octets ++ [slash], (List.append_cons ..).symm ▸ rfl⟩

theorem innerComponents_of_not_mem {s : Octets} (h : slash ∉ s) :
    innerComponents s = (innerComponent? s).toList := by
  rw [innerComponents, slashPieces_of_not_mem h]
  cases hs : innerComponent? s <;> simp [hs]

theorem componentsOf_ne_nil {s : Octets} (hs : s ≠ []) : componentsOf s ≠ [] := by
  by_cases hroot : s.head? = some slash
  · unfold componentsOf
    rw [if_pos hroot]
    exact List.cons_ne_nil _ _
  · by_cases hcurrent : (slashPieces s).head? = some [point]
    · unfold componentsOf
      rw [if_neg hroot, if_pos hcurrent]
      exact List.cons_ne_nil _ _
    · -- the first piece is a name or leads up
      obtain ⟨c, r, rfl⟩ := List.exists_cons_of_ne_nil hs
      obtain ⟨piece, pieces, hr⟩ := List.exists_cons_of_ne_nil (slashPieces_ne_nil r)
      have hc : c ≠ slash := by simpa using hroot
      have hpieces : slashPieces (c :: r) = (c :: piece) :: pieces := by
        rw [slashPieces_cons hc, hr]
        rfl
      have hpoint : c :: piece ≠ [point] := by simpa [hpieces] using hcurrent
      obtain ⟨x, hx⟩ : ∃ x, innerComponent? (c :: piece) = some x := by
        unfold innerComponent?
        rw [if_neg (by simpa using hpoint)]
        split <;> exact ⟨_, rfl⟩
      unfold componentsOf
      rw [if_neg hroot, if_neg hcurrent, hpieces, List.filterMap_cons, hx]
      exact List.cons_ne_nil _ _

theorem length_componentsOf_le {s : Octets} (h : slash ∉ s) : (componentsOf s).length ≤ 1 := by
  have hroot : s.head? ≠ some slash := fun hs => h (List.mem_of_mem_head? hs)
  have hinner : (slashPieces s).filterMap innerComponent? = (innerComponent? s).toList :=
    innerComponents_of_not_mem h
  unfold componentsOf
  rw [if_neg hroot, hinner, slashPieces_of_not_mem h]
  by_cases hpoint : s = [point]
  · subst hpoint
    decide
  · rw [if_neg (by simpa using hpoint)]
    cases innerComponent? s <;> simp

/-- A spelling that ends in a name behind a slash has components besides it. -/
theorem lt_length_componentsOf {a b : Octets} {n : RawText} (hb : slash ∉ b)
    (hname : innerComponent? b = some (.name n)) : 1 < (componentsOf (a ++ slash :: b)).length := by
  have hinner : innerComponents b = [.name n] := by
    rw [innerComponents_of_not_mem hb, hname]
    rfl
  by_cases ha : a = []
  · subst ha
    rw [List.nil_append, componentsOf_slash, hinner]
    exact Nat.one_lt_two
  · have hpos := List.length_pos_of_ne_nil (componentsOf_ne_nil ha)
    rw [componentsOf_append_slash ha, hinner, List.length_append, List.length_singleton]
    omega

end Path

namespace Host

variable {t : Tree} {links : Nat} {place d : List RawText} {ss : List Step} {h : Host}
  {name : String}

/-! ## Ways to a program -/

/-- **A way that leads to a file ends in a name.** -/
theorem Leads.exists_name (hl : Leads t true links place ss d) {node : Nat} {content : Octets}
    {mode : Nat} (hd : t.get? d = some (.file node content mode))
    (hplace : ∃ u, t.get? place = some (.dir u)) :
    ∃ n, ss.getLast? = some (.name n) := by
  -- a step in front does not change the end
  have hcons : ∀ {s : Step} {ss : List Step}, (∃ n, ss.getLast? = some (.name n)) →
      ∃ n, (s :: ss).getLast? = some (.name n) := by
    rintro s ss ⟨n, hn⟩
    exact ⟨n, by rw [List.getLast?_cons, hn]; rfl⟩
  induction hl with
  | done =>
    obtain ⟨u, hu⟩ := hplace
    rw [hu] at hd
    cases hd
  | stay _ ih => exact hcons (ih hd hplace)
  | slash _ ih => exact hcons (ih hd hplace)
  | up _ ih => exact hcons (ih hd (exists_dir_dropLast hplace))
  | dir hn _ ih => exact hcons (ih hd ⟨_, hn⟩)
  | file hn => exact ⟨_, rfl⟩
  | here _ hlast => cases hlast
  | @link _ _ n _ g ss _ hn _ _ _ ih =>
    obtain ⟨m, hm⟩ := ih hd (exists_dir_origin hplace _)
    rcases List.eq_nil_or_concat ss with rfl | ⟨front, x, rfl⟩
    · exact ⟨n, rfl⟩
    · rw [List.concat_eq_append, ← List.append_assoc, List.getLast?_concat] at hm
      exact ⟨m, by rw [List.concat_eq_append, ← List.cons_append, List.getLast?_concat, hm]⟩
  | missing hn _ => simp [hn] at hd

/-- The steps of a spelling end in a name only if its last piece is one. -/
theorem step?_of_getLast?_steps {a b : Octets} {n : RawText} (hb : Path.slash ∉ b)
    (hlast : (steps (a ++ Path.slash :: b)).getLast? = some (.name n)) :
    step? b = some (.name n) := by
  have hmoves : moves (a ++ Path.slash :: b) = moves a ++ (step? b).toList := by
    rw [moves, Path.slashPieces_append_slash, List.filterMap_append,
      Path.slashPieces_of_not_mem hb, moves]
    cases hstep : step? b <;> simp [hstep]
  rw [steps_eq, hmoves] at hlast
  split at hlast
  · rw [List.getLast?_concat] at hlast
    cases hlast
  · next hslash =>
    cases hstep : step? b with
    | none =>
      -- the piece is empty, and a slash stands before it
      obtain rfl := eq_nil_of_step?_eq_none hstep
      exact absurd List.getLast?_concat hslash
    | some x =>
      rw [hstep, Option.toList_some, List.append_nil, List.getLast?_concat] at hlast
      exact hlast

theorem innerComponent?_of_step? {b : Octets} {n : RawText}
    (hstep : step? b = some (.name n)) : Path.innerComponent? b = some (.name n) := by
  unfold step? at hstep
  unfold Path.innerComponent?
  split at hstep
  · cases hstep
  · next hnil =>
    split at hstep
    · cases hstep
    · next hpoint =>
      rw [if_neg (not_or.2 ⟨hnil, hpoint⟩)]
      split at hstep
      · cases hstep
      · next hpoints =>
        cases hstep
        rw [if_neg hpoints]

/-- The working directory is there. -/
def Working (h : Host) : Prop :=
  ∃ u, h.tree.get? h.directory = some (.dir u)

theorem isProgram_iff {p : Path} :
    h.isProgram p = true ↔ ∃ e, h.entry p = .ok e ∧ e.isExecutable = true := by
  rw [isProgram]
  cases h.entry p <;> simp

/-- A path leads to a program only if its last piece is a name. -/
theorem exists_name_of_isProgram (hworking : h.Working) {p : Path} {a b : Octets}
    (hp : p.spelling.octets = a ++ Path.slash :: b) (hb : Path.slash ∉ b)
    (hprogram : h.isProgram p = true) :
    ∃ n, step? b = some (.name n) := by
  obtain ⟨e, he, hexecutable⟩ := isProgram_iff.1 hprogram
  obtain ⟨d, hlocate, hd⟩ := entry_eq_ok_iff.1 he
  obtain ⟨-, -, hleads⟩ := locate_eq_ok_iff.1 hlocate
  cases e with
  | file node content mode =>
    obtain ⟨n, hn⟩ := hleads.exists_name hd (exists_dir_origin hworking _)
    rw [hp] at hn
    exact ⟨n, step?_of_getLast?_steps hb hn⟩
  | link node target => cases hexecutable
  | dir u => cases hexecutable

/-! ## The look for a program -/

theorem slash_mem_name_iff : Path.slash ∈ (name : RawText).octets ↔ '/' ∈ name.toList := by
  have hread : Text.decodeLossy (name : RawText).octets = name.toList :=
    Text.decodeLossy_of_decode? (Text.decode?_encode name.toList)
  rw [← hread, Text.mem_decodeLossy_iff (b := Path.slash) (by decide) (by decide)]

/-- A name with a slash is a path, even where it has one component only. -/
theorem isSome_findProgram?_of_slash (hworking : h.Working) (hslash : '/' ∈ name.toList) :
    (h.findProgram? name).isSome = h.isProgram ⟨name⟩ := by
  unfold findProgram?
  dsimp only
  by_cases hmany : 1 < (⟨name⟩ : Path).components.length
  · rw [if_pos hmany]
    cases h.isProgram ⟨name⟩ <;> rfl
  · -- with one component there is no name at the end, so neither look finds anything
    obtain ⟨a, b, hname, hb⟩ := Path.exists_last_slash (slash_mem_name_iff.2 hslash)
    have hnone : ∀ {p : Path}, (∃ front, p.spelling.octets = front ++ (name : RawText).octets) →
        h.isProgram p = false := by
      rintro p ⟨front, hp⟩
      refine Bool.eq_false_iff.2 fun hprogram => ?_
      rw [hname, ← List.append_assoc] at hp
      obtain ⟨n, hn⟩ := exists_name_of_isProgram hworking hp hb hprogram
      have hlt := Path.lt_length_componentsOf (a := a) hb (innerComponent?_of_step? hn)
      rw [← hname] at hlt
      exact hmany hlt
    have hfind : (h.searchPath.map (·.join ⟨name⟩)).find? h.isProgram = none := by
      refine List.find?_eq_none.2 (List.forall_mem_map.2 fun dir _ => ?_)
      rw [hnone (Path.exists_spelling_join dir ⟨name⟩)]
      exact Bool.false_ne_true
    rw [if_neg hmany, hfind, hnone (p := ⟨name⟩) ⟨[], rfl⟩]
    rfl

theorem isSome_findProgram?_of_bare (hbare : '/' ∉ name.toList) :
    (h.findProgram? name).isSome = (h.searchPath.map (·.join ⟨name⟩)).any h.isProgram := by
  have hone : ¬ 1 < (⟨name⟩ : Path).components.length :=
    Nat.not_lt.2 (Path.length_componentsOf_le (mt slash_mem_name_iff.1 hbare))
  unfold findProgram?
  dsimp only
  rw [if_neg hone, List.isSome_find?]

/-! ## What a shell finds -/

/-- A shell that is started on the host finds the command of the name. The shell reads its script
octet by octet. -/
def ShellFinds (h : Host) (name : String) : Prop :=
  ∃ p, Shell.findCommand (Shell.State.start h none) (name : RawText).wide = .ok p

/-- The search path is set, and its directories are absolute. -/
def SearchesAbsolutely (h : Host) : Prop :=
  ∃ dirs, h.value? "PATH" = some dirs ∧
    ∀ dir ∈ Text.splitOn [colon] dirs.octets, dir.head? = some Path.slash

theorem mem_wide_iff {b : UInt8} {s : Octets} : Char.ofNat b.toNat ∈ Text.wide s ↔ b ∈ s := by
  constructor
  · intro h
    obtain ⟨c, hc, heq⟩ := List.mem_map.1 h
    have hsame : Text.wide [c] = Text.wide [b] := congrArg (fun x => [x]) heq
    obtain rfl : c = b := by
      simpa [Text.narrow_wide] using congrArg Text.narrow hsame
    exact hc
  · exact fun h => List.mem_map.2 ⟨b, h, rfl⟩

/-- Octets are cut at an octet, and as characters at the character of that octet, into the same
pieces. -/
theorem splitOn_wide (b : UInt8) (s : Octets) :
    Text.splitOn [Char.ofNat b.toNat] (Text.wide s) = (Text.splitOn [b] s).map Text.wide := by
  obtain ⟨hne, hfree, hjoined⟩ := Text.splitOn_singleton_iff.1 (Eq.refl (Text.splitOn [b] s))
  refine Text.splitOn_singleton_iff.2 ⟨by simpa using hne, List.forall_mem_map.2 fun p hp => ?_, ?_⟩
  · exact mt mem_wide_iff.1 (hfree p hp)
  · have hwide : Text.wide ([b].intercalate (Text.splitOn [b] s)) =
        [Char.ofNat b.toNat].intercalate ((Text.splitOn [b] s).map Text.wide) :=
      Text.map_intercalate _ _ _
    rw [← hwide, hjoined]

/-- A shell sees the variables of its host, but for the one it sets itself. -/
theorem value?_start (h : Host) {key : String} (hne : key ≠ "PWD") :
    (Shell.State.start h none).value? key = (h.value? key).map RawText.wide := by
  have hkey : (key == "PWD") = false := beq_false_of_ne hne
  have hlookup : ∀ bindings : List (String × RawText),
      ((bindings.filter fun v => v.1 ≠ "PWD").map fun v => (v.1, v.2.wide)).lookup key =
        (bindings.lookup key).map RawText.wide := by
    intro bindings
    induction bindings with
    | nil => rfl
    | cons v bindings ih =>
      obtain ⟨x, value⟩ := v
      by_cases hx : x = "PWD"
      · subst hx
        rw [List.filter_cons_of_neg (by simp), List.lookup_cons, hkey, ih]
      · rw [List.filter_cons_of_pos (by simpa using hx), List.map_cons, List.lookup_cons,
          List.lookup_cons, ih]
        cases key == x <;> rfl
  have hstart : (Shell.State.start h none).value? key =
      (("PWD", h.workingPath.wide) ::
        (h.bindings.filter fun v => v.1 ≠ "PWD").map fun v => (v.1, v.2.wide)).lookup key := rfl
  rw [hstart, List.lookup_cons, hkey, hlookup]
  rfl

theorem slash_mem_wide_iff : '/' ∈ (name : RawText).wide.toList ↔ '/' ∈ name.toList := by
  rw [RawText.wide, String.toList_ofList, ← slash_mem_name_iff]
  exact mem_wide_iff (b := Path.slash)

theorem shellFinds_of_slash (hslash : '/' ∈ name.toList) :
    h.ShellFinds name ↔ h.isProgram ⟨name⟩ = true := by
  have hhost : (Shell.State.start h none).host = h := rfl
  have hname : Path.ofWide (name : RawText).wide = ⟨name⟩ := Path.ofWide_wide ⟨name⟩
  rw [ShellFinds, Shell.findCommand, if_pos (slash_mem_wide_iff.2 hslash), isProgram_iff, hhost,
    hname]
  cases he : h.entry ⟨name⟩ with
  | error f => simp [he]
  | ok e => cases hexecutable : e.isExecutable <;> simp [he, hexecutable]

theorem shellFinds_of_bare (habsolute : h.SearchesAbsolutely) (hbare : '/' ∉ name.toList) :
    h.ShellFinds name ↔ (h.searchPath.map (·.join ⟨name⟩)).any h.isProgram = true := by
  obtain ⟨dirs, hdirs, habsolute⟩ := habsolute
  have hvalue : (Shell.State.start h none).value? "PATH" = some dirs.wide := by
    rw [value?_start h (by decide), hdirs]
    rfl
  have hhost : (Shell.State.start h none).host = h := rfl
  have hcut : Text.splitOn [':'] dirs.wide.toList =
      (Text.splitOn [colon] dirs.octets).map Text.wide := by
    rw [RawText.wide, String.toList_ofList]
    exact splitOn_wide colon dirs.octets
  -- no directory is the empty text, which would stand for the working directory
  have hcandidates : ((Text.splitOn [':'] dirs.wide.toList).map String.ofList).map
      (fun d => (Path.ofWide (if d = "" then "." else d)).child
        (.ofWide (name : RawText).wide)) = h.searchPath.map (·.join ⟨name⟩) := by
    rw [searchPath, hdirs, hcut, List.map_map, List.map_map, List.map_map]
    refine List.map_congr_left fun dir hdir => ?_
    have hne : String.ofList (Text.wide dir) ≠ "" := by
      intro hempty
      have hhead := habsolute dir hdir
      rw [List.map_eq_nil_iff.1 (String.ofList_eq_empty_iff.1 hempty)] at hhead
      cases hhead
    have hdirectory : Path.ofWide (String.ofList (Text.wide dir)) = ⟨⟨dir⟩⟩ :=
      Path.ofWide_wide ⟨⟨dir⟩⟩
    simp only [Function.comp_apply, if_neg hne, hdirectory, Path.child, RawText.ofWide_wide]
  have hany : (h.searchPath.map (·.join ⟨name⟩)).any h.isProgram =
      ((h.searchPath.map (·.join ⟨name⟩)).find? h.isProgram).isSome := List.isSome_find?.symm
  rw [ShellFinds, Shell.findCommand, if_neg (mt slash_mem_wide_iff.1 hbare), hvalue, hany]
  dsimp only
  rw [hcandidates, hhost]
  cases (h.searchPath.map (·.join ⟨name⟩)).find? h.isProgram with
  | some p => exact ⟨fun _ => rfl, fun _ => ⟨p, rfl⟩⟩
  | none =>
    refine ⟨?_, fun hfound => by cases hfound⟩
    rintro ⟨p, hp⟩
    dsimp only at hp
    split at hp
    · cases hp
    · cases hp

/-- **The look finds what a shell in the working directory finds.** -/
theorem isSome_findProgram?_iff (hworking : h.Working) (habsolute : h.SearchesAbsolutely) :
    (h.findProgram? name).isSome = true ↔ h.ShellFinds name := by
  by_cases hslash : '/' ∈ name.toList
  · rw [isSome_findProgram?_of_slash hworking hslash, shellFinds_of_slash hslash]
  · rw [isSome_findProgram?_of_bare hslash, shellFinds_of_bare habsolute hslash]

/-! ## Other directories -/

theorem isProgram_workingIn {p : Path} (hp : p.isAbsolute = true) (place : List RawText) :
    (h.workingIn place).isProgram p = h.isProgram p := by
  rw [isProgram, isProgram, entry_workingIn hp]

theorem SearchesAbsolutely.of_mem_searchPath (habsolute : h.SearchesAbsolutely) {dir : Path}
    (hdir : dir ∈ h.searchPath) : dir.isAbsolute = true := by
  obtain ⟨dirs, hdirs, habsolute⟩ := habsolute
  rw [searchPath, hdirs] at hdir
  obtain ⟨piece, hpiece, rfl⟩ := List.mem_map.1 hdir
  simpa [Path.isAbsolute] using habsolute piece hpiece

theorem isAbsolute_of_head? (hroot : name.toList.head? = some '/') :
    (⟨name⟩ : Path).isAbsolute = true := by
  obtain ⟨rest, hrest⟩ := List.head?_eq_some_iff.1 hroot
  have hoctets : (name : RawText).octets = Path.slash :: Text.encode rest := by
    rw [RawText.ofString, hrest]
    rfl
  simp [Path.isAbsolute, hoctets]

/-- A bare name and an absolute path mean the same in every directory. -/
theorem shellFinds_workingIn (habsolute : h.SearchesAbsolutely)
    (hname : '/' ∉ name.toList ∨ name.toList.head? = some '/') (place : List RawText) :
    (h.workingIn place).ShellFinds name ↔ h.ShellFinds name := by
  rcases hname with hbare | hroot
  · have hinside : (h.workingIn place).SearchesAbsolutely := habsolute
    have hsearch : (h.workingIn place).searchPath = h.searchPath := rfl
    rw [shellFinds_of_bare habsolute hbare, shellFinds_of_bare hinside hbare, hsearch,
      List.any_map, List.any_map, List.any_eq_true, List.any_eq_true]
    refine exists_congr fun dir => and_congr_right fun hdir => ?_
    have hjoin := Path.isAbsolute_join (habsolute.of_mem_searchPath hdir) ⟨name⟩
    rw [Function.comp_apply, Function.comp_apply, isProgram_workingIn hjoin]
  · have hslash : '/' ∈ name.toList := List.mem_of_mem_head? hroot
    have hp : (⟨name⟩ : Path).isAbsolute = true := isAbsolute_of_head? hroot
    rw [shellFinds_of_slash hslash, shellFinds_of_slash hslash, isProgram_workingIn hp]

end Host

/-! ## The check of the toolchain -/

namespace EnvironmentConfig

theorem judge_ne_toolMissing (e : EnvironmentConfig) (r : Option CommandResult) (tool : String) :
    e.judge r ≠ .unsupported (.toolMissing tool) := by
  cases r with
  | none => simp [judge]
  | some r =>
    rw [judge, evaluate]
    split
    · simp
    · split <;> simp

/-- **The tool is looked for from the working directory, and run in the directory of the project.**
It counts as missing, and nothing is run, when a shell in the working directory would not find it;
otherwise the check runs the version command in the directory of the project and comes to another
result. For a bare name and for an absolute path, and when the two directories are one, that is what
a shell in the directory of the project would find; for other tools nothing is said of it. -/
theorem detect_in_working_directory {σ : Type} (s : Surroundings σ) (w : σ)
    (e : EnvironmentConfig) (directory : Path) {inside : Host} (check : e.check = true)
    (working : (s.host w).Working) (search : (s.host w).SearchesAbsolutely)
    (started : (s.host w).startIn directory = .ok inside) :
    let t := (e.detect directory).run s w
    ((s.host w).ShellFinds e.tool → t.events = [.called e.versionCommand directory] ∧
      ∃ found, t.result = .ok found ∧ found ≠ .unsupported (.toolMissing e.tool)) ∧
    (¬ (s.host w).ShellFinds e.tool →
      t.events = [] ∧ t.result = .ok (.unsupported (.toolMissing e.tool))) ∧
    ('/' ∉ e.tool.toList ∨ e.tool.toList.head? = some '/' ∨
        inside.directory = (s.host w).directory →
      ((s.host w).ShellFinds e.tool ↔ inside.ShellFinds e.tool)) := by
  intro t
  have hlook : ((s.host w).findProgram? e.tool).isSome = true ↔ (s.host w).ShellFinds e.tool :=
    Host.isSome_findProgram?_iff working search
  refine ⟨fun hfinds => ?_, fun hfinds => ?_, fun htool => ?_⟩
  · have hrun := detect_run_of_present check (hlook.2 hfinds) directory
    exact ⟨congrArg Trace.events hrun, _, congrArg Trace.result hrun, e.judge_ne_toolMissing _ _⟩
  · have missing : (s.host w).findProgram? e.tool = none :=
      Option.not_isSome_iff_eq_none.1 fun hsome => hfinds (hlook.1 hsome)
    have hrun := detect_run_of_missing check missing directory
    exact ⟨congrArg Trace.events hrun, congrArg Trace.result hrun⟩
  · obtain ⟨place, -, rfl, -⟩ := Host.startIn_of_ok started
    rcases htool with hbare | hroot | hsame
    · exact (Host.shellFinds_workingIn search (.inl hbare) place).symm
    · exact (Host.shellFinds_workingIn search (.inr hroot) place).symm
    · have hinside : (s.host w).workingIn place = s.host w := by
        rw [show place = (s.host w).directory from hsame]
        rfl
      rw [hinside]

/-- A tool that is named by its path in the project. -/
def ownTool : EnvironmentConfig := { tool := "tools/php" }

/-- A directory with the tool in it. -/
def toolTree : Tree := .dir "tools" (.file "php" 0 [] Entry.scriptMode .empty) .empty

/-- A working directory on a host with a tool that answers. -/
def toolScript (tree : Tree) (directory : List RawText) : Script :=
  ⟨⟨tree, directory, [("PATH", "/bin")]⟩, [], [.ok ⟨["PHP 8.2.12 (cli)"], 0⟩]⟩

/-- The tool stands in the project. -/
def ownProject : List RawText → Script :=
  toolScript (.dir "app" toolTree .empty)

/-- The tool stands beside the project. -/
def strayProject : List RawText → Script :=
  toolScript (.dir "app" .empty toolTree)

/-- From the directory of the project, its own tool is found and asked. -/
theorem detect_in_working_directory_ownTool :
    (ownProject ["app"]).host.ShellFinds "tools/php" ∧
      ((ownTool.detect ⟨"."⟩).run Script.surroundings (ownProject ["app"])).events =
        [.called "tools/php --version" ⟨"."⟩] := by
  have working : (ownProject ["app"]).host.Working := ⟨_, rfl⟩
  have search : (ownProject ["app"]).host.SearchesAbsolutely := ⟨"/bin", rfl, by decide⟩
  have started : (ownProject ["app"]).host.startIn ⟨"."⟩ = .ok (ownProject ["app"]).host := by
    decide +kernel
  obtain ⟨hpresent, -, -⟩ := detect_in_working_directory Script.surroundings (ownProject ["app"])
    ownTool ⟨"."⟩ rfl working search started
  have hfinds : (ownProject ["app"]).host.ShellFinds "tools/php" :=
    (Host.shellFinds_of_slash (by decide)).2 (by decide +kernel)
  exact ⟨hfinds, (hpresent hfinds).1⟩

/-- **A tool that a shell in the project would run counts as missing**, when the process works
elsewhere; and a tool that stands there is asked for, although the shell does not find it. -/
theorem tool_misplaced :
    (∃ inside, (ownProject []).host.startIn ⟨"app"⟩ = .ok inside ∧
      inside.ShellFinds "tools/php" ∧
      (ownTool.detect ⟨"app"⟩).run Script.surroundings (ownProject []) =
        ⟨[], ownProject [], .ok (.unsupported (.toolMissing "tools/php"))⟩) ∧
    ∃ inside, (strayProject []).host.startIn ⟨"app"⟩ = .ok inside ∧
      ¬ inside.ShellFinds "tools/php" ∧
      ((ownTool.detect ⟨"app"⟩).run Script.surroundings (strayProject [])).events =
        [.called "tools/php --version" ⟨"app"⟩] := by
  have hslash : '/' ∈ "tools/php".toList := by decide
  have missing : (Script.surroundings.host (ownProject [])).findProgram? ownTool.tool = none := by
    decide +kernel
  have present : ((Script.surroundings.host (strayProject [])).findProgram? ownTool.tool).isSome =
      true := by decide +kernel
  have hasked := congrArg Trace.events (detect_run_of_present (e := ownTool) rfl present ⟨"app"⟩)
  refine ⟨⟨(ownProject ["app"]).host, by decide +kernel, ?_, detect_run_of_missing rfl missing _⟩,
    ⟨(strayProject ["app"]).host, by decide +kernel, ?_, hasked⟩⟩
  · exact (Host.shellFinds_of_slash hslash).2 (by decide +kernel)
  · rw [Host.shellFinds_of_slash hslash]
    decide +kernel

end EnvironmentConfig

end CommitGate

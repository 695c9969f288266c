import CommitGate.Cli.Program
import CommitGate.Proofs.Places
import CommitGate.Proofs.ScanAgreement

/-!
# Where the program is started

The configuration that is found is that of the nearest directory, from the working directory
upwards, that holds a file of that name. It is read by an absolute path, and its root is made
absolute, so that nothing that comes later can tell which of the directories below it the program
was started in.

Results:

* `findConfig_of_nearest`: the search ends at the nearest file.
* `effectiveConfig_of_nearest`: the configuration is that of this file, with its root from there.
* `Config.run_alike`: where the root is absolute, a run does not depend on the working directory.
* `started_anywhere`: two directories with the same nearest file lead to the same report.
-/

namespace CommitGate

namespace Config

/-- The configuration with its root taken from a place; an absolute root is kept. -/
def rootedAt (place : List RawText) (c : Config) : Config :=
  { c with project := { c.project with root := (Host.absolute place).join c.project.root } }

end Config

namespace Host

/-! ## The search -/

/-- The path of the configuration file in the directory at a place. -/
def configFile (place : List RawText) : Path :=
  (absolute place).child Config.fileName

/-- The directory at a place holds a configuration file. -/
def HoldsConfig (h : Host) (place : List RawText) : Prop :=
  ∃ node content mode, h.entry (configFile place) = .ok (.file node content mode)

/-- From the directory at `d` upwards, the first one with a configuration file is at `place`. -/
structure NearestConfig (h : Host) (d place : List RawText) : Prop where
  above : place <+: d
  holds : h.HoldsConfig place
  nearest : ∀ other, other <+: d → h.HoldsConfig other → other.length ≤ place.length

variable {h : Host} {d place : List RawText} {n : RawText}

theorem isAbsolute_configFile (place : List RawText) : (configFile place).isAbsolute = true :=
  Path.isAbsolute_join (isAbsolute_absolute place) _

theorem isFile_configFile_iff : h.isFile (configFile place) = true ↔ h.HoldsConfig place := by
  unfold isFile HoldsConfig
  split
  · next content mode he => simp [he]
  · next hne => simpa using hne

/-- The nearest configuration file, from a place upwards. -/
def configAbove? (h : Host) (place : List RawText) : Option Path :=
  (place.inits.reverse.map configFile).find? h.isFile

theorem findConfig_absolute (hplace : ∀ m ∈ place, IsName m) :
    h.findConfig (absolute place) =
      match h.configAbove? place with
      | some p => .ok p
      | none => .error (.configNotFound (configFile place)) := by
  rw [findConfig, ancestors_absolute hplace, List.map_map]
  rfl

theorem configAbove?_concat :
    h.configAbove? (place ++ [n]) =
      if h.isFile (configFile (place ++ [n])) then some (configFile (place ++ [n]))
      else h.configAbove? place := by
  rw [configAbove?, List.inits_append, List.reverse_append, List.map_append, List.find?_append]
  simp only [List.inits, List.tail_cons, List.map_singleton, List.reverse_singleton]
  by_cases hfile : h.isFile (configFile (place ++ [n])) = true
  · simp [List.find?, hfile]
  · simp [List.find?, hfile, configAbove?]

theorem configAbove?_eq_none_iff :
    h.configAbove? d = none ↔ ∀ place, place <+: d → ¬ h.HoldsConfig place := by
  rw [configAbove?, List.find?_eq_none]
  simp only [List.mem_map, List.mem_reverse, List.mem_inits, forall_exists_index, and_imp,
    forall_apply_eq_imp_iff₂, isFile_configFile_iff]

theorem exists_of_configAbove? {p : Path} (hp : h.configAbove? d = some p) :
    ∃ place, place <+: d ∧ p = configFile place := by
  have hmem := List.mem_of_find?_eq_some hp
  simp only [List.mem_map, List.mem_reverse, List.mem_inits] at hmem
  obtain ⟨place, habove, rfl⟩ := hmem
  exact ⟨place, habove, rfl⟩

theorem configAbove?_of_nearest (near : h.NearestConfig d place) :
    h.configAbove? d = some (configFile place) := by
  induction d using List.reverseRecOn with
  | nil =>
    obtain rfl := List.prefix_nil.1 near.above
    have hfile := isFile_configFile_iff.2 near.holds
    simp [configAbove?, hfile]
  | append_singleton d n ih =>
    rw [configAbove?_concat]
    rcases List.prefix_concat_iff.1 near.above with rfl | habove
    · rw [if_pos (isFile_configFile_iff.2 near.holds)]
    · -- a nearer file would be longer than the place, which is above `d`
      have hnot : ¬ h.HoldsConfig (d ++ [n]) := fun hholds => by
        have hle := near.nearest (d ++ [n]) (List.prefix_refl _) hholds
        have hlength := habove.length_le
        rw [List.length_append, List.length_singleton] at hle
        omega
      rw [if_neg (mt isFile_configFile_iff.1 hnot)]
      exact ih ⟨habove, near.holds, fun other hother =>
        near.nearest other (hother.trans (List.prefix_append d [n]))⟩

theorem configAbove?_workingIn (d place : List RawText) :
    (h.workingIn d).configAbove? place = h.configAbove? place := by
  induction place using List.reverseRecOn with
  | nil => simp [configAbove?, isFile_workingIn (isAbsolute_configFile [])]
  | append_singleton place n ih =>
    rw [configAbove?_concat, configAbove?_concat, ih, isFile_workingIn (isAbsolute_configFile _)]

/-! ## The configuration -/

theorem settledIn_configFile (hplace : ∀ m ∈ place, IsName m) (c : Config) :
    c.settledIn (configFile place) = c.rootedAt place := by
  have hname : IsName Config.fileName := by decide
  have hparent : (configFile place).parent? = some (absolute place) := by
    rw [configFile, ← absolute_concat hplace hname, parent?_absolute hplace hname]
  have hspelling : (absolute place).spelling.octets ≠ [] := by
    simp [octets_absolute]
  rw [Config.settledIn, hparent]
  dsimp only
  by_cases habsolute : c.project.root.isAbsolute = true
  · rw [if_pos (.inl habsolute), Config.rootedAt, Path.join_absolute habsolute]
  · rw [if_neg (not_or.2 ⟨habsolute, hspelling⟩)]
    rfl

variable {u : Tree}

/-- **The search ends at the nearest file.** -/
theorem findConfig_of_nearest (wf : h.tree.Proper) (hd : h.tree.get? d = some (.dir u))
    (near : h.NearestConfig d place) :
    (h.workingIn d).findConfig (h.workingIn d).workingPath = .ok (configFile place) := by
  rw [workingPath_workingIn, findConfig_absolute (wf.get? hd).1, configAbove?_workingIn,
    configAbove?_of_nearest near]

section Read

variable [Toml.Diagnosis]

theorem settledConfig_configFile (hplace : ∀ m ∈ place, IsName m) :
    h.settledConfig (configFile place) =
      (h.loadConfig (configFile place)).map (·.rootedAt place) := by
  unfold settledConfig
  cases h.loadConfig (configFile place) with
  | error e => rfl
  | ok c =>
    show Except.ok (c.settledIn (configFile place)) = .ok (c.rootedAt place)
    rw [settledIn_configFile hplace]

theorem loadConfig_workingIn {p : Path} (hp : p.isAbsolute = true) (d : List RawText) :
    (h.workingIn d).loadConfig p = h.loadConfig p := by
  rw [loadConfig, loadConfig, configText, configText, readText_workingIn hp]

theorem loadConfig_of_text {p : Path} {text : String} (hread : h.readText p = .ok text) :
    h.loadConfig p = Config.read text := by
  rw [loadConfig, configText, hread]
  rfl

/-- A configuration file that is there can be read, or it is not UTF-8. -/
theorem loadConfig_of_unreadable (holds : h.HoldsConfig place) {f : Fault}
    (hread : h.readText (configFile place) = .error f) :
    h.loadConfig (configFile place) = .error (.ofFault "read config" f) := by
  obtain ⟨node, content, mode, he⟩ := holds
  have hfault : f = .notUtf8 := by
    rw [readText, readFile, he] at hread
    simp only [bind, Except.bind] at hread
    cases hdecoded : Text.decode? content with
    | none =>
      rw [hdecoded] at hread
      exact (Except.error.inj hread).symm
    | some text =>
      rw [hdecoded] at hread
      cases hread
  subst hfault
  rw [loadConfig, configText, hread]
  rfl

/-- What the configuration is, by the search from the working directory. -/
theorem effectiveConfig_workingIn (wf : h.tree.Proper) (hd : h.tree.get? d = some (.dir u)) :
    (h.workingIn d).effectiveConfig none =
      match h.configAbove? d with
      | some p => h.settledConfig p
      | none => .ok {} := by
  rw [effectiveConfig, workingPath_workingIn, findConfig_absolute (wf.get? hd).1,
    configAbove?_workingIn]
  cases hfound : h.configAbove? d with
  | none => rfl
  | some p =>
    obtain ⟨place, -, rfl⟩ := exists_of_configAbove? hfound
    dsimp only
    rw [settledConfig, settledConfig, loadConfig_workingIn (isAbsolute_configFile place)]

theorem effectiveConfig_of_nearest (wf : h.tree.Proper) (hd : h.tree.get? d = some (.dir u))
    (near : h.NearestConfig d place) :
    (h.workingIn d).effectiveConfig none =
      (h.loadConfig (configFile place)).map (·.rootedAt place) := by
  have hplace : ∀ m ∈ place, IsName m := fun m hm => (wf.get? hd).1 m (near.above.subset hm)
  rw [effectiveConfig_workingIn wf hd, configAbove?_of_nearest near]
  exact settledConfig_configFile hplace

/-- The root of a configuration that was found is absolute. -/
theorem isAbsolute_root_of_nearest (wf : h.tree.Proper) (hd : h.tree.get? d = some (.dir u))
    (near : h.NearestConfig d place) {c : Config}
    (hc : (h.workingIn d).effectiveConfig none = .ok c) : c.project.root.isAbsolute = true := by
  rw [effectiveConfig_of_nearest wf hd near] at hc
  cases hload : h.loadConfig (configFile place) with
  | error e => rw [hload] at hc; cases hc
  | ok loaded =>
    rw [hload] at hc
    cases hc
    exact Path.isAbsolute_join (isAbsolute_absolute place) _

/-- **The defaults hold exactly where no file is found.** -/
theorem effectiveConfig_eq_default_iff (wf : h.tree.Proper)
    (hd : h.tree.get? d = some (.dir u)) :
    (h.workingIn d).effectiveConfig none = .ok {} ↔
      ∀ place, place <+: d → ¬ h.HoldsConfig place := by
  rw [effectiveConfig_workingIn wf hd, ← configAbove?_eq_none_iff]
  cases hfound : h.configAbove? d with
  | none => simp
  | some p =>
    obtain ⟨place, habove, rfl⟩ := exists_of_configAbove? hfound
    have hplace : ∀ m ∈ place, IsName m := fun m hm => (wf.get? hd).1 m (habove.subset hm)
    simp only [settledConfig_configFile hplace, reduceCtorEq, iff_false]
    intro hdefault
    cases hload : h.loadConfig (configFile place) with
    | error e => rw [hload] at hdefault; cases hdefault
    | ok c =>
      -- the root of the defaults is relative
      rw [hload] at hdefault
      have hroot : (absolute place).join c.project.root = ⟨"."⟩ :=
        congrArg (fun c : Config => c.project.root) (Except.ok.inj hdefault)
      have habsolute := Path.isAbsolute_join (isAbsolute_absolute place) c.project.root
      rw [hroot] at habsolute
      exact absurd habsolute (by decide)

/-- A directory that holds no configuration file, but maybe a directory of that name, is passed
over. -/
theorem effectiveConfig_passes (wf : h.tree.Proper)
    (hd : h.tree.get? (d ++ [n]) = some (.dir u)) (hnot : ¬ h.HoldsConfig (d ++ [n])) :
    (h.workingIn (d ++ [n])).effectiveConfig none = (h.workingIn d).effectiveConfig none := by
  obtain ⟨v, hv⟩ := Tree.exists_dir_of_get?_append hd (by simp)
  rw [effectiveConfig_workingIn wf hd, effectiveConfig_workingIn wf hv, configAbove?_concat,
    if_neg (mt isFile_configFile_iff.1 hnot)]

end Read

end Host

/-! ## What is done with it -/

namespace Trace

variable {σ₁ σ₂ α : Type}

/-- The same was done, with the same result. -/
def Alike (t₁ : Trace σ₁ α) (t₂ : Trace σ₂ α) : Prop :=
  t₁.events = t₂.events ∧ t₁.result = t₂.result

theorem Alike.output {t₁ : Trace σ₁ α} {t₂ : Trace σ₂ α} (h : t₁.Alike t₂) (colors : Bool)
    (status : α → Nat) :
    Cli.Output.ofTrace colors status t₁ = Cli.Output.ofTrace colors status t₂ := by
  have htext : t₁.text colors = t₂.text colors := by rw [text_eq, text_eq, h.1]
  rw [Cli.Output.ofTrace, Cli.Output.ofTrace, htext, h.2]

end Trace

variable {σ₁ σ₂ : Type} {s₁ : Surroundings σ₁} {s₂ : Surroundings σ₂} {w₁ : σ₁} {w₂ : σ₂}

/-- Where its configuration stands and what the answer and the tests are is all that a gate
depends on. -/
theorem Gate.run_alike {g : Gate}
    (configured : g.hasTestConfig (s₁.host w₁) = g.hasTestConfig (s₂.host w₂))
    (answers : (s₁.answer w₁).1 = (s₂.answer w₂).1) (tests : g.tested s₁ w₁ = g.tested s₂ w₂) :
    (g.run.run s₁ w₁).Alike (g.run.run s₂ w₂) := by
  unfold run
  split
  · exact ⟨rfl, rfl⟩
  rw [Act.run_host_bind, Act.run_host_bind, configured]
  split
  · exact ⟨rfl, rfl⟩
  rw [prompt_run, prompt_run, ← answers]
  have hreply : ((g.reply (s₁.answer w₁).1).run s₁ (s₁.answer w₁).2).Alike
      ((g.reply (s₁.answer w₁).1).run s₂ (s₂.answer w₂).2) := by
    cases (s₁.answer w₁).1 with
    | error text => exact ⟨rfl, rfl⟩
    | ok line =>
      cases choice : Answer.ofInput line with
      | no =>
        rw [reply_no choice, reply_no choice]
        exact ⟨rfl, rfl⟩
      | yes =>
        rw [reply_yes choice, reply_yes choice]
        obtain ⟨hevents₁, hresult₁⟩ := runTests_run g s₁ (s₁.answer w₁).2
        obtain ⟨hevents₂, hresult₂⟩ := runTests_run g s₂ (s₂.answer w₂).2
        rw [tested, tested] at tests
        rw [tests] at hevents₁ hresult₁
        exact ⟨hevents₁.trans hevents₂.symm, hresult₁.trans hresult₂.symm⟩
  exact ⟨congrArg (g.question ++ ·) hreply.1, hreply.2⟩

/-- Two worlds show the same host but for its working directory, and give the same answer and the
same result of the tests. -/
structure SameReplies (h : Host) (c : Config) (d₁ d₂ : List RawText) (s₁ : Surroundings σ₁)
    (w₁ : σ₁) (s₂ : Surroundings σ₂) (w₂ : σ₂) : Prop where
  host₁ : s₁.host w₁ = h.workingIn d₁
  host₂ : s₂.host w₂ = h.workingIn d₂
  answers : (s₁.answer w₁).1 = (s₂.answer w₂).1
  tests : (s₁.command c.tests.commandLine c.project.root (s₁.answer w₁).2).1 =
    (s₂.command c.tests.commandLine c.project.root (s₂.answer w₂).2).1

namespace Config

variable {h : Host} {c : Config} {d₁ d₂ : List RawText}

theorem gateOn_workingIn (hroot : c.project.root.isAbsolute = true) (d : List RawText) :
    c.gateOn (h.workingIn d) = c.gateOn h := by
  rw [gateOn, gateOn, Host.projectName_workingIn hroot]

theorem hasTestConfig_workingIn (hroot : c.project.root.isAbsolute = true) (d : List RawText) :
    (c.gateOn h).hasTestConfig (h.workingIn d) = (c.gateOn h).hasTestConfig h :=
  Host.isFile_workingIn (Path.isAbsolute_join hroot _) d

section Run

variable {σ : Type} {s : Surroundings σ} {w : σ} {d : List RawText}

/-- The record of a run with an absolute root, from the host without its working directory. -/
theorem run_workingIn (unchecked : c.environment.check = false)
    (hroot : c.project.root.isAbsolute = true) (hw : s.host w = h.workingIn d) :
    c.run.run s w =
      match h.listing c.project.root with
      | .error fault => ⟨[], w, .error (.walk c.project.root [fault.text])⟩
      | .ok _ =>
        match h.collect c.project.selection c.project.root with
        | .error e => ⟨[], w, .error e⟩
        | .ok files =>
          let gate := (c.gateOn h).run.run s w
          ⟨c.findingsSaid files ++ (gate.events ++ c.verdictAfter .unchecked files gate.result),
            gate.world, gate.result.map (c.outcomeOf .unchecked files)⟩ := by
  have hdetect := EnvironmentConfig.detect_run_of_not_check unchecked c.project.root s w
  have hlisting : (s.host w).listing c.project.root = h.listing c.project.root := by
    rw [hw, Host.listing_workingIn hroot]
  have hcollect : (s.host w).collect c.project.selection c.project.root =
      h.collect c.project.selection c.project.root := by
    rw [hw, Host.collect_workingIn hroot]
  cases listed : h.listing c.project.root with
  | error fault => exact run_of_unlisted (hlisting.trans listed)
  | ok inner =>
    cases collected : h.collect c.project.selection c.project.root with
    | error e =>
      exact run_of_uncollected (hlisting.trans listed) hdetect rfl (hcollect.trans collected)
    | ok files =>
      have hran := run_of_collected (hlisting.trans listed) hdetect rfl (hcollect.trans collected)
      rw [hw, gateOn_workingIn hroot] at hran
      exact hran

theorem scan_workingIn (hroot : c.project.root.isAbsolute = true) (hw : s.host w = h.workingIn d) :
    c.scan.run s w =
      match h.collect c.project.selection c.project.root with
      | .error e => ⟨[], w, .error e⟩
      | .ok files => ⟨c.findingsSaid files, w, .ok (c.scanStatus (files.checkAll c.rules))⟩ := by
  have hcollect : (s.host w).collect c.project.selection c.project.root =
      h.collect c.project.selection c.project.root := by
    rw [hw, Host.collect_workingIn hroot]
  cases collected : h.collect c.project.selection c.project.root with
  | error e => exact scan_of_uncollected (hcollect.trans collected)
  | ok files => exact scan_of_collected (hcollect.trans collected)

end Run

/-- **Where the root is absolute, a run does not depend on the working directory.** -/
theorem run_alike (unchecked : c.environment.check = false)
    (hroot : c.project.root.isAbsolute = true) (same : SameReplies h c d₁ d₂ s₁ w₁ s₂ w₂) :
    (c.run.run s₁ w₁).Alike (c.run.run s₂ w₂) := by
  have hgate : ((c.gateOn h).run.run s₁ w₁).Alike ((c.gateOn h).run.run s₂ w₂) := by
    refine Gate.run_alike ?_ same.answers same.tests
    rw [same.host₁, same.host₂, hasTestConfig_workingIn hroot, hasTestConfig_workingIn hroot]
  rw [run_workingIn unchecked hroot same.host₁, run_workingIn unchecked hroot same.host₂]
  cases h.listing c.project.root with
  | error fault => exact ⟨rfl, rfl⟩
  | ok inner =>
    cases h.collect c.project.selection c.project.root with
    | error e => exact ⟨rfl, rfl⟩
    | ok files =>
      dsimp only
      rw [hgate.1, hgate.2]
      exact ⟨rfl, rfl⟩

theorem scan_alike (hroot : c.project.root.isAbsolute = true) (json : Bool)
    (h₁ : s₁.host w₁ = h.workingIn d₁) (h₂ : s₂.host w₂ = h.workingIn d₂) :
    ((if json then c.scanJson else c.scan).run s₁ w₁).Alike
      ((if json then c.scanJson else c.scan).run s₂ w₂) := by
  cases json with
  | false =>
    simp only [Bool.false_eq_true, if_false]
    rw [scan_workingIn hroot h₁, scan_workingIn hroot h₂]
    cases h.collect c.project.selection c.project.root <;> exact ⟨rfl, rfl⟩
  | true =>
    simp only [if_true]
    unfold scanJson
    rw [Act.run_host_bind, Act.run_host_bind, h₁, h₂, Host.collect_workingIn hroot,
      Host.collect_workingIn hroot]
    cases h.collect c.project.selection c.project.root with
    | error e =>
      rw [Act.run_bind_of_error (e := e) rfl, Act.run_bind_of_error (e := e) rfl]
      exact ⟨rfl, rfl⟩
    | ok files =>
      rw [Act.run_bind_of_ok (x := files) rfl, Act.run_bind_of_ok (x := files) rfl]
      dsimp only
      split <;> exact ⟨rfl, rfl⟩

end Config

/-! ## The two commands -/

namespace Cli

variable {h : Host} {c : Config} {d₁ d₂ : List RawText}

/-- What is typed at the terminal and what the tests come to is the same for a call from another
working directory. -/
theorem sameReplies_surroundings (h : Host) (d₁ d₂ : List RawText)
    (hroot : c.project.root.isAbsolute = true) (given : Option Answer) (limit : Option Duration) :
    SameReplies h c d₁ d₂ (surroundings given limit) (h.workingIn d₁) (surroundings given limit)
      (h.workingIn d₂) where
  host₁ := rfl
  host₂ := rfl
  answers := by
    have hterminal : terminal.isAbsolute = true := by decide
    have htyped (d : List RawText) : typedLine (h.workingIn d) = typedLine h := by
      rw [typedLine, typedLine, Host.readText_workingIn hterminal]
    simp only [surroundings, htyped]
  tests := by
    simp only [surroundings, Host.runCommand_workingIn hroot]

theorem isOn_workingIn (choice : ColorChoice) (d : List RawText) :
    choice.isOn (h.workingIn d) = choice.isOn h := by
  cases choice <;> rfl

theorem isAbsolute_root_adjust {o : RunOptions} (ho : o.root = none)
    (hroot : c.project.root.isAbsolute = true) : (o.adjust c).project.root.isAbsolute = true := by
  show (o.root.getD c.project.root).isAbsolute = true
  rwa [ho, Option.getD_none]

section SameConfig

variable [Toml.Diagnosis]
  (hconfig : (h.workingIn d₁).effectiveConfig none = (h.workingIn d₂).effectiveConfig none)
  (hroot : ∀ c, (h.workingIn d₁).effectiveConfig none = .ok c → c.project.root.isAbsolute = true)

include hconfig hroot

theorem scanProject_congr (colors json : Bool) :
    scanProject colors none none json (h.workingIn d₁) =
      scanProject colors none none json (h.workingIn d₂) := by
  rw [scanProject, scanProject, ← hconfig]
  cases given : (h.workingIn d₁).effectiveConfig none with
  | error e => rfl
  | ok c =>
    have host (d : List RawText) :
        (surroundings none none).host (h.workingIn d) = h.workingIn d := rfl
    exact (Config.scan_alike (hroot c given) json (host d₁) (host d₂)).output colors id

theorem runGate_congr (colors : Bool) {o : RunOptions} (ho : o.root = none)
    (unchecked : ∀ c, (h.workingIn d₁).effectiveConfig none = .ok c →
      c.environment.check = false) :
    (runGate colors none o (h.workingIn d₁)).1 = (runGate colors none o (h.workingIn d₂)).1 := by
  rw [runGate, runGate, ← hconfig, Host.value?_workingIn, Host.value?_workingIn]
  by_cases skipped : h.value? skipVariable = some ↑"1"
  · rw [if_pos skipped, if_pos skipped]
  rw [if_neg skipped, if_neg skipped]
  cases given : (h.workingIn d₁).effectiveConfig none with
  | error e => rfl
  | ok c =>
    have habsolute := isAbsolute_root_adjust ho (hroot c given)
    have hunchecked : (o.adjust c).environment.check = false := unchecked c given
    have same := sameReplies_surroundings h d₁ d₂ habsolute
      (if o.yes then some Answer.yes else none) (o.adjust c).tests.timeLimit?
    exact (Config.run_alike hunchecked habsolute same).output colors RunOutcome.exitStatus

end SameConfig

/-- **The program may be started anywhere in a project.** Without a file given, the defaults hold
exactly where no directory upwards holds a configuration file, and a directory of that name is
passed over. From any two working directories with the same nearest file, that file is found; the
configuration is what the file says, or the failure it leads to, with its root taken from the place
of the file. A text that describes no configuration, or one that is not valid, and a file that is
not UTF-8 make both fail in the same way. A scan prints the same and ends with the same status from
both, and so does a run, when the toolchain is not checked. The same answer and the same result of
the tests lead to the same record of a run, whatever the surroundings are. -/
theorem started_anywhere [Toml.Diagnosis] (h : Host) (wf : h.tree.Proper) :
    (∀ d u, h.tree.get? d = some (.dir u) →
      ((h.workingIn d).effectiveConfig none = .ok {} ↔
        ∀ place, place <+: d → ¬ h.HoldsConfig place)) ∧
    (∀ d n u t, h.tree.get? (d ++ [n]) = some (.dir u) →
      h.entry (Host.configFile (d ++ [n])) = .ok (.dir t) →
      (h.workingIn (d ++ [n])).effectiveConfig none = (h.workingIn d).effectiveConfig none) ∧
    ∀ d₁ d₂ u₁ u₂ place, h.tree.get? d₁ = some (.dir u₁) → h.tree.get? d₂ = some (.dir u₂) →
      h.NearestConfig d₁ place → h.NearestConfig d₂ place →
      let h₁ := h.workingIn d₁
      let h₂ := h.workingIn d₂
      let file := Host.configFile place
      h₁.findConfig h₁.workingPath = .ok file ∧ h₂.findConfig h₂.workingPath = .ok file ∧
      h₁.effectiveConfig none = (h.loadConfig file).map (·.rootedAt place) ∧
      h₂.effectiveConfig none = (h.loadConfig file).map (·.rootedAt place) ∧
      (∀ text f, h.readText file = .ok text → Config.read text = .error f →
        h₁.effectiveConfig none = .error f ∧ h₂.effectiveConfig none = .error f) ∧
      (∀ f, h.readText file = .error f →
        h₁.effectiveConfig none = .error (.ofFault "read config" f) ∧
          h₂.effectiveConfig none = .error (.ofFault "read config" f)) ∧
      (∀ (i : Invocation) json,
        (({ i with config := none, command := some (.scan none json) }).perform h₁).1 =
          (({ i with config := none, command := some (.scan none json) }).perform h₂).1) ∧
      ((∀ c, h₁.effectiveConfig none = .ok c → c.environment.check = false) →
        (∀ (i : Invocation) (o : RunOptions), o.root = none →
          (({ i with config := none, command := some (.run o) }).perform h₁).1 =
            (({ i with config := none, command := some (.run o) }).perform h₂).1) ∧
        ∀ c, h₁.effectiveConfig none = .ok c → ∀ (o : RunOptions), o.root = none →
          ∀ (σ₁ σ₂ : Type) (s₁ : Surroundings σ₁) (w₁ : σ₁) (s₂ : Surroundings σ₂) (w₂ : σ₂),
            SameReplies h (o.adjust c) d₁ d₂ s₁ w₁ s₂ w₂ →
            ((o.adjust c).run.run s₁ w₁).Alike ((o.adjust c).run.run s₂ w₂)) := by
  refine ⟨fun d u hd => Host.effectiveConfig_eq_default_iff wf hd, ?_, ?_⟩
  · intro d n u t hd hdir
    refine Host.effectiveConfig_passes wf hd ?_
    rintro ⟨node, content, mode, hfile⟩
    rw [hdir] at hfile
    cases hfile
  · intro d₁ d₂ u₁ u₂ place hd₁ hd₂ near₁ near₂ h₁ h₂ file
    have config₁ := Host.effectiveConfig_of_nearest wf hd₁ near₁
    have config₂ := Host.effectiveConfig_of_nearest wf hd₂ near₂
    have hconfig := config₁.trans config₂.symm
    have hroot : ∀ c, h₁.effectiveConfig none = .ok c → c.project.root.isAbsolute = true :=
      fun c hc => Host.isAbsolute_root_of_nearest wf hd₁ near₁ hc
    refine ⟨Host.findConfig_of_nearest wf hd₁ near₁, Host.findConfig_of_nearest wf hd₂ near₂,
      config₁, config₂, fun text f hread hinvalid => ?_, fun f hread => ?_, fun i json => ?_,
      fun unchecked => ⟨fun i o ho => ?_, ?_⟩⟩
    · rw [config₁, config₂, Host.loadConfig_of_text hread, hinvalid]
      exact ⟨rfl, rfl⟩
    · rw [config₁, config₂, Host.loadConfig_of_unreadable near₁.holds hread]
      exact ⟨rfl, rfl⟩
    · show scanProject (i.color.isOn h₁) none none json h₁ =
        scanProject (i.color.isOn h₂) none none json h₂
      rw [isOn_workingIn, isOn_workingIn]
      exact scanProject_congr hconfig hroot _ json
    · show (runGate (i.color.isOn h₁) none o h₁).1 = (runGate (i.color.isOn h₂) none o h₂).1
      rw [isOn_workingIn, isOn_workingIn]
      exact runGate_congr hconfig hroot _ ho unchecked
    · intro c hc o ho σ₁ σ₂ s₁ w₁ s₂ w₂ same
      exact Config.run_alike (unchecked c hc) (isAbsolute_root_adjust ho (hroot c hc)) same

attribute [local instance] Toml.Diagnosis.silent

/-- A project whose configuration stands above its sources, beside which a directory has the name of
a configuration. -/
def layeredProject : Host :=
  ⟨.dir "work"
    (.file Config.fileName 0 (Text.encode "[project]\nroot = \"src\"\n".toList) Entry.plainMode
      (.dir "src" (.dir Config.fileName .empty
        (.file "a.php" 1 (Text.encode "<<<<<<< HEAD".toList) Entry.plainMode .empty)) .empty))
    .empty, [], []⟩

/-- The scan finds the open merge from the directory of the sources, too. -/
theorem started_anywhere_layeredProject :
    (({ command := some (.scan none false) } : Invocation).perform
        (layeredProject.workingIn ["work", "src"])).1 =
      (({ command := some (.scan none false) } : Invocation).perform
        (layeredProject.workingIn ["work"])).1 := by
  have wf : layeredProject.tree.Proper := by decide
  have holds : layeredProject.HoldsConfig ["work"] := ⟨0, _, Entry.plainMode, by rfl⟩
  have near : layeredProject.NearestConfig ["work"] ["work"] :=
    ⟨List.prefix_refl _, holds, fun other hother _ => hother.length_le⟩
  have hnot : ¬ layeredProject.HoldsConfig ["work", "src"] := by
    rintro ⟨node, content, mode, hfile⟩
    have hdir : layeredProject.entry (Host.configFile ["work", "src"]) = .ok (.dir .empty) := by rfl
    rw [hdir] at hfile
    cases hfile
  have nested : layeredProject.NearestConfig ["work", "src"] ["work"] := by
    refine ⟨⟨["src"], rfl⟩, holds, fun other hother hholds => ?_⟩
    have hsplit : other <+: ["work"] ++ ["src"] := hother
    rcases List.prefix_concat_iff.1 hsplit with rfl | habove
    · exact absurd hholds hnot
    · exact habove.length_le
  obtain ⟨-, -, -, -, -, -, hscan, -⟩ := (started_anywhere layeredProject wf).2.2
    ["work", "src"] ["work"] _ _ ["work"] (by rfl) (by rfl) nested near
  exact hscan {} false

end Cli

end CommitGate

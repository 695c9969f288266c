import CommitGate.BuiltIn
import CommitGate.Proofs.Collect
import CommitGate.Proofs.Utf8

/-!
# Markers in raw files

Files are collected as text, with U+FFFD where they are no text. No marker comes or goes by that: a
pattern that does not ask for U+FFFD stands in the content just where its octets stand in the file.

Results:

* `stands_contentText_iff`: a pattern without U+FFFD stands in a content exactly when its octets
  stand in the file.
* `markers_exact`: the findings of a collected project are the pairs of a file and a rule of which a
  pattern has its octets in the raw file.
-/

namespace CommitGate.Host

open Text (Octets octets)

/-- A pattern is looked for in what was read. -/
theorem stands_iff (p : String) (content : Octets) :
    stands p (contentText content) = true ↔ p.toList <:+: Text.decodeLossy content := by
  unfold stands contentText
  rw [Text.occursIn_iff_isInfix, String.toList_ofList]

theorem stands_contentText_of_infix {p : String} {content : Octets} (h : octets p <:+: content) :
    stands p (contentText content) = true := by
  rw [Text.octets_eq] at h
  exact (stands_iff p content).2 (Text.infix_decodeLossy_of_infix h)

theorem stands_contentText_iff {p : String} (hp : '\uFFFD' ∉ p.toList) (content : Octets) :
    stands p (contentText content) = true ↔ octets p <:+: content := by
  rw [stands_iff, Text.infix_decodeLossy_iff hp, Text.octets_eq]

/-- A rule without U+FFFD hits a content exactly when the octets of one of its patterns stand in the
file. -/
theorem exists_firstMatch?_contentText_iff {r : Rule} (hr : ∀ p ∈ r.patterns, '\uFFFD' ∉ p.toList)
    (content : Octets) :
    (∃ p, r.firstMatch? (contentText content) = some p) ↔
      ∃ p ∈ r.patterns, octets p <:+: content := by
  rw [← Option.isSome_iff_exists, firstMatch?_isSome, containsAny, List.any_eq_true]
  constructor
  · rintro ⟨p, hp, hstands⟩
    exact ⟨p, hp, (stands_contentText_iff (hr p hp) content).1 hstands⟩
  · rintro ⟨p, hp, hinfix⟩
    exact ⟨p, hp, stands_contentText_of_infix hinfix⟩

/-- **No marker is hidden or invented by reading.** Whatever octets a file has, a pattern whose
octets stand in them stands in the content, and one without U+FFFD stands nowhere else. So the
findings of rules without U+FFFD in a collected project are the pairs of a file that belongs to it
and a rule of which a pattern has its octets in the raw file. -/
theorem markers_exact (h : Host) (s : Selection) (root : Path) (rules : List Rule)
    (wf : h.tree.Proper) :
    (∀ (content : Octets) (p : String), octets p <:+: content →
      stands p (contentText content) = true) ∧
    (∀ (content : Octets) (p : String), '\uFFFD' ∉ p.toList →
      (stands p (contentText content) = true ↔ octets p <:+: content)) ∧
    ∀ files, h.collect s root = .ok files → (∀ r ∈ rules, ∀ p ∈ r.patterns, '\uFFFD' ∉ p.toList) →
      ∀ (path : Path) (r : Rule),
        (∃ f ∈ files.checkAll rules, f.path = path ∧ f.rule = r) ↔
          r ∈ rules ∧ ∃ names content, (∀ n ∈ names, IsName n) ∧ h.Belongs s root names content ∧
            path = root.below names ∧ ∃ p ∈ r.patterns, octets p <:+: content := by
  refine ⟨fun content p => stands_contentText_of_infix,
    fun content p hp => stands_contentText_iff hp content, ?_⟩
  intro files collected hrules path r
  constructor
  · rintro ⟨f, hf, rfl, rfl⟩
    obtain ⟨hrule, text, hentry, hmatch⟩ := FileSet.mem_checkAll.1 hf
    obtain ⟨names, content, hnames, hbelongs, heq⟩ := (mem_entries_collect wf collected _).1 hentry
    obtain ⟨hpath, htext⟩ := Prod.mk.inj heq
    rw [htext] at hmatch
    exact ⟨hrule, names, content, hnames, hbelongs, hpath,
      (exists_firstMatch?_contentText_iff (hrules _ hrule) content).1 ⟨_, hmatch⟩⟩
  · rintro ⟨hrule, names, content, hnames, hbelongs, rfl, hinfix⟩
    obtain ⟨pattern, hmatch⟩ := (exists_firstMatch?_contentText_iff (hrules r hrule) content).2
      hinfix
    have hentry := (mem_entries_collect wf collected _).2 ⟨names, content, hnames, hbelongs, rfl⟩
    exact ⟨⟨root.below names, r, pattern⟩, FileSet.mem_checkAll.2 ⟨hrule, _, hentry, hmatch⟩, rfl,
      rfl⟩

/-- A project with a marker right behind the first two octets of a character of three. -/
def cutProject : Host :=
  ⟨.file "a.php" 0 ([0xE2, 0x82] ++ List.replicate 7 0x3C) Entry.plainMode .empty, [], []⟩

theorem markers_cutProject :
    cutProject.tree.Proper ∧ ∃ files, cutProject.collect ⟨[], []⟩ ⟨"."⟩ = .ok files ∧
      ∃ f ∈ files.checkAll [BuiltIn.conflict], f.path = ⟨"./a.php"⟩ ∧
        f.rule = BuiltIn.conflict := by
  have wf : cutProject.tree.Proper := by decide
  have hroot : cutProject.pathExists ⟨"."⟩ = true := by decide +kernel
  obtain ⟨files, collected⟩ := collect_of_pathExists (s := ⟨[], []⟩) hroot
  have hbelongs : cutProject.Belongs ⟨[], []⟩ ⟨"."⟩ ["a.php"]
      ([0xE2, 0x82] ++ List.replicate 7 0x3C) := by
    refine ⟨fun k hk hk' => ?_, ⟨0, Entry.plainMode, by rfl⟩, by decide +kernel, .inl rfl⟩
    rw [List.length_singleton] at hk'
    omega
  refine ⟨wf, files, collected, ?_⟩
  refine ((markers_exact cutProject ⟨[], []⟩ ⟨"."⟩ [BuiltIn.conflict] wf).2.2 files collected
    (by decide) _ _).2 ?_
  exact ⟨by decide, ["a.php"], _, by decide, hbelongs, by decide +kernel, "<<<<<<<", by decide,
    ⟨[0xE2, 0x82], [], by decide +kernel⟩⟩

end CommitGate.Host

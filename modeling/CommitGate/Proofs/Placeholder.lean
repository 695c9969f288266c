import CommitGate.Config.Basic
import CommitGate.Proofs.Pieces

/-!
# Placeholders in a command

The placeholder begins with a brace that it has nowhere else, so its occurrences in a command never
overlap and cut the command into pieces in one way. The command line has the test configuration
between these pieces. They depend on the command alone: what the configuration brings in is not
looked at again, not even where it makes another placeholder with the text around it.

Results:

* `commandLine_eq_of_isCutAt`: the command line is the pieces of the command with the configuration
  between them.
* `placeholders_replaced`: occurrences, pieces and command line of every command.
-/

namespace CommitGate.TestsConfig

open Text (OccursAt IsCutAt Unbordered)

theorem unbordered_placeholder : Unbordered placeholder :=
  Text.unbordered_cons (a := '\x7b') (t := "config\x7d".toList) (by decide)

/-- **The command line** is the pieces of the command with the configuration between them. -/
theorem commandLine_eq_of_isCutAt {t : TestsConfig} {pieces : List (List Char)}
    (h : IsCutAt placeholder t.command.toList pieces) :
    t.commandLine = String.ofList (t.config.toList.intercalate pieces) := by
  rw [commandLine, Text.replaceAll, (Text.isCutAt_iff unbordered_placeholder).1 h]

/-- **Every placeholder is replaced, and nothing else.** The occurrences of the placeholder in a
command are pairwise disjoint. The command is pieces without it that are joined by it, in one way,
and its occurrences are the places where two pieces are joined. For every configuration the command
line is these pieces joined by the configuration. -/
theorem placeholders_replaced (command : String) :
    (∀ i j, OccursAt placeholder command.toList i → OccursAt placeholder command.toList j →
      i < j → i + placeholder.length ≤ j) ∧
    ∃ pieces : List (List Char),
      (∀ others, IsCutAt placeholder command.toList others ↔ others = pieces) ∧
      (∀ i, OccursAt placeholder command.toList i ↔ ∃ k, k + 1 < pieces.length ∧
        i = (placeholder.intercalate (pieces.take (k + 1))).length) ∧
      ∀ t : TestsConfig, t.command = command →
        t.commandLine = String.ofList (t.config.toList.intercalate pieces) := by
  have hcut : IsCutAt placeholder command.toList (Text.splitOn placeholder command.toList) :=
    (Text.isCutAt_iff unbordered_placeholder).2 rfl
  refine ⟨fun i j hi hj hij => hi.disjoint unbordered_placeholder hj hij, _, fun others => ?_,
    fun i => hcut.occursAt_iff unbordered_placeholder, fun t ht => ?_⟩
  · rw [Text.isCutAt_iff unbordered_placeholder]
    exact eq_comm
  · subst ht
    exact commandLine_eq_of_isCutAt hcut

/-- A configuration that is a placeholder, and one that makes one of the text around it. -/
theorem placeholders_replaced_nested :
    OccursAt placeholder "t \x7bconfig\x7d \x7bcon\x7bconfig\x7dfig\x7d".toList 2 ∧
    OccursAt placeholder "t \x7bconfig\x7d \x7bcon\x7bconfig\x7dfig\x7d".toList 15 ∧
    2 + placeholder.length ≤ 15 ∧
    ({ command := "t \x7bconfig\x7d \x7bcon\x7bconfig\x7dfig\x7d", config := "\x7bconfig\x7d" } :
      TestsConfig).commandLine = "t \x7bconfig\x7d \x7bcon\x7bconfig\x7dfig\x7d" ∧
    ({ command := "t \x7bconfig\x7d \x7bcon\x7bconfig\x7dfig\x7d", config := "" } :
      TestsConfig).commandLine = "t  \x7bconfig\x7d" := by
  obtain ⟨hdisjoint, pieces, hcut, hoccurs, hline⟩ :=
    placeholders_replaced "t \x7bconfig\x7d \x7bcon\x7bconfig\x7dfig\x7d"
  have hpieces : ["t ".toList, " \x7bcon".toList, "fig\x7d".toList] = pieces :=
    (hcut _).1 ((Text.isCutAt_iff unbordered_placeholder).2 (by decide))
  subst hpieces
  have hfirst := (hoccurs 2).2 ⟨0, by decide, by decide⟩
  have hsecond := (hoccurs 15).2 ⟨1, by decide, by decide⟩
  refine ⟨hfirst, hsecond, hdisjoint 2 15 hfirst hsecond (by decide), ?_, ?_⟩
  · rw [hline _ rfl]
    decide
  · rw [hline _ rfl]
    decide

end CommitGate.TestsConfig

import CommitGate.Proofs.Utf8
import CommitGate.Text.Lines
import Mathlib.Data.List.Infix

/-!
# Lines of a stream

What a command writes arrives in pieces, as octets that need not be text. It is cut into lines
before anything is decoded, and each line is decoded on its own. Nothing is lost by that: a newline
or a carriage return is an octet of its own and never part of a longer character, not even of a
broken one. So the lines are those of the text that the whole stream is read as.

Results:

* `isLines_iff`: the lines of a list are told by how the list is put together.
* `textLines_append_newline`: the first line of a text.
* `decodeLossy_dropFinal`, `linesBy_decodeLossy`: cutting and decoding commute.
* `readLines_eq`: a stream is read as its lines, however it is cut.
* `readLines_exact`: the lines of a stream, their number, and the way back to the text.
-/

namespace CommitGate.Text

section Pieces

variable {α : Type} [DecidableEq α]

/-! ## Lines of a list -/

/-- The lines of a list: each of them ends with a newline, but for a last one that is not empty;
none holds a newline, and one carriage return at its end is left out. -/
def IsLines (newline carriage : α) (s : List α) (lines : List (List α)) : Prop :=
  ∃ ended opened, s = ended.flatMap (· ++ [newline]) ++ opened ∧ (∀ l ∈ ended, newline ∉ l) ∧
    newline ∉ opened ∧
    lines = (ended ++ if opened = [] then [] else [opened]).map (dropFinal carriage)

variable {newline : α} {s opened : List α} {ended : List (List α)}

theorem pieces_of_not_mem (h : newline ∉ opened) :
    pieces newline opened = if opened = [] then [] else [opened] := by
  induction opened with
  | nil => rfl
  | cons a r ih =>
    rw [List.mem_cons, not_or] at h
    rw [pieces, if_neg (Ne.symm h.1), ih h.2]
    cases r <;> rfl

theorem pieces_append_newline {l : List α} (h : newline ∉ l) (r : List α) :
    pieces newline (l ++ newline :: r) = l :: pieces newline r := by
  induction l with
  | nil => rw [List.nil_append, pieces, if_pos rfl]
  | cons a l ih =>
    rw [List.mem_cons, not_or] at h
    rw [List.cons_append, pieces, if_neg (Ne.symm h.1), ih h.2]

theorem pieces_flatMap (hended : ∀ l ∈ ended, newline ∉ l) (hopened : newline ∉ opened) :
    pieces newline (ended.flatMap (· ++ [newline]) ++ opened) =
      ended ++ if opened = [] then [] else [opened] := by
  induction ended with
  | nil => exact pieces_of_not_mem hopened
  | cons l ended ih =>
    obtain ⟨hl, hended⟩ := List.forall_mem_cons.1 hended
    rw [List.flatMap_cons, List.append_assoc, List.append_assoc, List.singleton_append,
      pieces_append_newline hl, ih hended, List.cons_append]

/-- Every list is some pieces with a newline behind each, and a rest without any. -/
theorem exists_ended (newline : α) (s : List α) :
    ∃ (ended : List (List α)) (opened : List α), s = ended.flatMap (· ++ [newline]) ++ opened ∧
      (∀ l ∈ ended, newline ∉ l) ∧ newline ∉ opened := by
  induction s with
  | nil => exact ⟨[], [], rfl, by simp, List.not_mem_nil⟩
  | cons a s ih =>
    obtain ⟨ended, opened, rfl, hended, hopened⟩ := ih
    by_cases ha : a = newline
    · subst ha
      refine ⟨[] :: ended, opened, by simp, ?_, hopened⟩
      exact List.forall_mem_cons.2 ⟨List.not_mem_nil, hended⟩
    · cases ended with
      | nil => exact ⟨[], a :: opened, rfl, by simp, by simp [Ne.symm ha, hopened]⟩
      | cons l ended =>
        obtain ⟨hl, hended⟩ := List.forall_mem_cons.1 hended
        refine ⟨(a :: l) :: ended, opened, by simp, ?_, hopened⟩
        exact List.forall_mem_cons.2 ⟨by simp [Ne.symm ha, hl], hended⟩

/-- **The lines of a list are told by how the list is put together**, and there is one way to. -/
theorem isLines_iff {carriage : α} {lines : List (List α)} :
    IsLines newline carriage s lines ↔ lines = linesBy newline carriage s := by
  constructor
  · rintro ⟨ended, opened, rfl, hended, hopened, rfl⟩
    rw [linesBy, pieces_flatMap hended hopened]
  · rintro rfl
    obtain ⟨ended, opened, rfl, hended, hopened⟩ := exists_ended newline s
    exact ⟨ended, opened, rfl, hended, hopened, by rw [linesBy, pieces_flatMap hended hopened]⟩

omit [DecidableEq α] in
/-- Only where nothing is left open does a list end with a newline. -/
theorem getLast?_eq_newline_iff (hopened : newline ∉ opened) :
    (ended.flatMap (· ++ [newline]) ++ opened).getLast? = some newline ↔
      opened = [] ∧ ended ≠ [] := by
  rcases List.eq_nil_or_concat opened with rfl | ⟨front, a, rfl⟩
  · rcases List.eq_nil_or_concat ended with rfl | ⟨front, l, rfl⟩ <;> simp
  · rw [List.concat_eq_append, List.mem_append, not_or, List.mem_singleton] at hopened
    simp [Ne.symm hopened.2]

/-- A line is counted for each newline, and one more for what stands behind the last. -/
theorem length_linesBy (newline carriage : α) (s : List α) :
    (linesBy newline carriage s).length =
      s.count newline + if s = [] ∨ s.getLast? = some newline then 0 else 1 := by
  obtain ⟨ended, opened, rfl, hended, hopened⟩ := exists_ended newline s
  have hcount : (ended.flatMap (· ++ [newline])).count newline = ended.length := by
    induction ended with
    | nil => rfl
    | cons l ended ih =>
      obtain ⟨hl, hended⟩ := List.forall_mem_cons.1 hended
      rw [List.flatMap_cons, List.count_append, List.count_append, ih hended,
        List.count_eq_zero.2 hl, List.count_singleton_self, List.length_cons]
      omega
  rw [linesBy, List.length_map, pieces_flatMap hended hopened, List.length_append,
    List.count_append, hcount, List.count_eq_zero.2 hopened]
  simp only [getLast?_eq_newline_iff hopened]
  by_cases hnil : opened = [] <;> by_cases hnone : ended = [] <;> simp [hnil, hnone]

theorem dropFinal_of_not_mem {carriage : α} {l : List α} (h : carriage ∉ l) :
    dropFinal carriage l = l :=
  if_neg fun hlast => h (List.mem_of_mem_getLast? hlast)

omit [DecidableEq α] in
theorem intercalate_concat (newline : α) (ended : List (List α)) (l : List α) :
    [newline].intercalate (ended ++ [l]) = ended.flatMap (· ++ [newline]) ++ l := by
  induction ended with
  | nil => exact List.intercalate_singleton ..
  | cons l' ended ih =>
    rw [List.flatMap_cons, List.append_assoc, ← ih, List.cons_append,
      List.intercalate_cons_of_ne_nil (by simp), List.append_assoc]

/-- Lines without a carriage return, joined, give the list back but for a newline at its end. -/
theorem intercalate_linesBy {carriage : α} (h : carriage ∉ s) :
    [newline].intercalate (linesBy newline carriage s) ++
      (if s.getLast? = some newline then [newline] else []) = s := by
  obtain ⟨ended, opened, rfl, hended, hopened⟩ := exists_ended newline s
  rw [List.mem_append, not_or, List.mem_flatMap] at h
  have hdrop : ∀ l ∈ ended ++ if opened = [] then [] else [opened], dropFinal carriage l = l := by
    intro l hl
    refine dropFinal_of_not_mem fun hmem => ?_
    rcases List.mem_append.1 hl with hl | hl
    · exact h.1 ⟨l, hl, List.mem_append_left _ hmem⟩
    · split at hl
      · cases hl
      · rw [List.mem_singleton.1 hl] at hmem
        exact h.2 hmem
  rw [linesBy, pieces_flatMap hended hopened, List.map_congr_left hdrop, List.map_id']
  simp only [getLast?_eq_newline_iff hopened]
  by_cases hnil : opened = []
  · rcases List.eq_nil_or_concat ended with rfl | ⟨front, l, rfl⟩
    · simp [hnil]
    · simp [hnil, intercalate_concat]
  · simp [hnil, intercalate_concat]

end Pieces

/-! ## Lines of a text -/

/-- What stands before a newline is a line of its own, when it holds none and has no carriage return
at its end. -/
theorem textLines_append_newline {l : List Char} (h : '\n' ∉ l) (hlast : l.getLast? ≠ some '\r')
    (r : List Char) : textLines (l ++ '\n' :: r) = l :: textLines r := by
  induction l with
  | nil => rfl
  | cons c l ih =>
    obtain ⟨hc, hl⟩ := not_or.1 (List.mem_cons.not.1 h)
    cases l with
    | nil =>
      have hreturn : c ≠ '\r' := by simpa using hlast
      rw [List.singleton_append, textLines.eq_4 c ('\n' :: r) (Ne.symm hc)
        (fun _ hr => absurd hr hreturn)]
      rfl
    | cons d l =>
      have hd : d ≠ '\n' := fun hd => hl (hd ▸ List.mem_cons_self)
      have hcut : textLines (d :: l ++ '\n' :: r) = (d :: l) :: textLines r :=
        ih hl (by simpa using hlast)
      rw [List.cons_append, textLines.eq_4 c _ (Ne.symm hc) ?_, hcut]
      rintro s - heq
      exact hd (List.cons.inj heq).1

/-- A text has a line for each newline at least. -/
theorem count_newline_le (s : List Char) : s.count '\n' ≤ (textLines s).length := by
  fun_induction textLines s with
  | case1 => exact Nat.le_refl _
  | case2 r ih => simpa using ih
  | case3 r ih => simpa using ih
  | case4 c r hc _ hnone ih =>
    rw [hnone] at ih
    rw [List.count_cons_of_ne hc]
    exact ih.trans (Nat.zero_le 1)
  | case5 c r hc _ l ls hsome ih =>
    rw [hsome] at ih
    rw [List.count_cons_of_ne hc]
    exact ih

/-! ## Decoding -/

theorem decodeLossy_eq_nil_iff (s : Octets) : decodeLossy s = [] ↔ s = [] := by
  refine ⟨fun h => ?_, fun h => h ▸ rfl⟩
  have hreads := reads_units s
  rw [List.map_eq_nil_iff.1 h] at hreads
  cases hreads
  rfl

theorem Reads.exists_append {us us' : List (Option Char)} {s : Octets} (h : Reads (us ++ us') s) :
    ∃ front back, s = front ++ back ∧ Reads us front ∧ Reads us' back := by
  generalize hall : us ++ us' = all at h
  induction h generalizing us with
  | nil =>
    obtain ⟨rfl, rfl⟩ := List.append_eq_nil_iff.1 hall
    exact ⟨[], [], rfl, .nil, .nil⟩
  | @char c all s rest ih =>
    cases us with
    | nil =>
      obtain rfl : us' = some c :: all := hall
      exact ⟨[], _, rfl, .nil, .char c rest⟩
    | cons u us =>
      obtain ⟨rfl, hrest⟩ := List.cons.inj hall
      obtain ⟨front, back, rfl, hfront, hback⟩ := ih hrest
      exact ⟨encodeChar c ++ front, back, (List.append_assoc ..).symm, .char c hfront, hback⟩
  | @broken run all s rest ih =>
    cases us with
    | nil =>
      obtain rfl : us' = none :: all := hall
      exact ⟨[], _, rfl, .nil, .broken run rest⟩
    | cons u us =>
      obtain ⟨rfl, hrest⟩ := List.cons.inj hall
      obtain ⟨front, back, rfl, hfront, hback⟩ := ih hrest
      exact ⟨run ++ front, back, (List.append_assoc ..).symm, .broken run hfront, hback⟩

theorem encode_append (s t : List Char) : encode (s ++ t) = encode s ++ encode t :=
  List.flatMap_append

section Character

variable {c : Char} {b : UInt8} (hc : encode [c] = [b])

include hc

/-- A character of one octet cuts a stream into two that are read on their own. -/
theorem decodeLossy_append_cons (s r : Octets) :
    decodeLossy (s ++ b :: r) = decodeLossy s ++ c :: decodeLossy r := by
  have h := decodeLossy_append_encode s r (List.cons_ne_nil c [])
  rwa [hc] at h

variable (hne : c ≠ '\uFFFD')

include hne

theorem mem_decodeLossy_iff (s : Octets) : c ∈ decodeLossy s ↔ b ∈ s := by
  rw [← List.singleton_infix_iff, infix_decodeLossy_iff (by simpa using hne.symm), hc,
    List.singleton_infix_iff]

/-- A stream is read with such a character at its end only if it has the octet there. -/
theorem getLast?_decodeLossy_iff (s : Octets) :
    (decodeLossy s).getLast? = some c ↔ s.getLast? = some b := by
  rw [List.getLast?_eq_some_iff, List.getLast?_eq_some_iff]
  constructor
  · rintro ⟨front, hfront⟩
    obtain ⟨us, last, hunits, -, hlast⟩ := List.map_eq_append_iff.1 hfront
    obtain ⟨u, rfl, hu⟩ := List.map_eq_singleton_iff.1 hlast
    -- a broken run is read as another character
    obtain rfl : u = some c := by
      cases u with
      | none => exact absurd hu.symm hne
      | some d => exact congrArg some hu
    have hreads := reads_units s
    rw [hunits] at hreads
    obtain ⟨before, back, rfl, -, hback⟩ := hreads.exists_append
    have hoctet : back = encode [c] := Reads.eq_encode (t := [c]) hback
    exact ⟨before, by rw [hoctet, hc]⟩
  · rintro ⟨front, rfl⟩
    exact ⟨decodeLossy front, decodeLossy_append_cons hc front []⟩

theorem decodeLossy_dropFinal (s : Octets) :
    decodeLossy (dropFinal b s) = dropFinal c (decodeLossy s) := by
  unfold dropFinal
  simp only [getLast?_decodeLossy_iff hc hne]
  split
  · next hlast =>
    obtain ⟨front, rfl⟩ := List.getLast?_eq_some_iff.1 hlast
    rw [decodeLossy_append_cons hc front [], List.dropLast_concat]
    exact List.dropLast_concat.symm
  · rfl

end Character

theorem encode_newline : encode ['\n'] = [10] := by decide

theorem encode_carriage : encode ['\r'] = [13] := by decide

/-- **Cutting and decoding commute.** -/
theorem linesBy_decodeLossy (s : Octets) :
    linesBy '\n' '\r' (decodeLossy s) = (linesBy 10 13 s).map decodeLossy := by
  obtain ⟨ended, opened, rfl, hended, hopened⟩ := exists_ended (10 : UInt8) s
  have hread : decodeLossy (ended.flatMap (· ++ [10]) ++ opened) =
      (ended.map decodeLossy).flatMap (· ++ ['\n']) ++ decodeLossy opened := by
    clear hended
    induction ended with
    | nil => rfl
    | cons l ended ih =>
      rw [List.flatMap_cons, List.append_assoc, List.append_assoc, List.singleton_append,
        decodeLossy_append_cons encode_newline, ih, List.map_cons, List.flatMap_cons,
        List.append_assoc, List.append_assoc, List.singleton_append]
  have hnewline (l : Octets) : '\n' ∈ decodeLossy l ↔ 10 ∈ l :=
    mem_decodeLossy_iff encode_newline (by decide) l
  have hended' : ∀ l ∈ ended.map decodeLossy, '\n' ∉ l :=
    List.forall_mem_map.2 fun l hl hmem => hended l hl ((hnewline l).1 hmem)
  have hopened' : '\n' ∉ decodeLossy opened := fun hmem => hopened ((hnewline opened).1 hmem)
  have hdrop : decodeLossy ∘ dropFinal 13 = dropFinal '\r' ∘ decodeLossy :=
    funext (decodeLossy_dropFinal encode_carriage (by decide))
  rw [linesBy, linesBy, hread, pieces_flatMap hended' hopened', pieces_flatMap hended hopened,
    List.map_map, hdrop, ← List.map_map, List.map_append]
  simp only [decodeLossy_eq_nil_iff]
  split <;> simp

/-! ## Reading -/

namespace LineReader

/-- The lines that have been taken up, with the one that is still open. -/
def taken (r : LineReader) : List Octets :=
  r.ended.reverse ++ if r.opened = [] then [] else [r.opened.reverse]

theorem finish_eq (r : LineReader) :
    r.finish = r.taken.map fun line => String.ofList (decodeLossy (dropFinal 13 line)) := by
  unfold finish taken
  split <;> simp

/-- What is open when an octet comes holds no newline, and goes on with it. -/
theorem taken_piece (r : LineReader) (s : Octets) (h : 10 ∉ r.opened) :
    (r.piece s).taken = r.ended.reverse ++ pieces 10 (r.opened.reverse ++ s) := by
  induction s generalizing r with
  | nil =>
    rw [List.append_nil, pieces_of_not_mem (by simpa using h), piece, List.foldl_nil, taken]
    simp only [List.reverse_eq_nil_iff]
  | cons b s ih =>
    show ((r.octet b).piece s).taken = _
    unfold octet
    split
    · next hb =>
      subst hb
      rw [ih _ List.not_mem_nil, pieces_append_newline (by simpa using h)]
      simp
    · next hb =>
      rw [ih _ (by simp [Ne.symm hb, h])]
      simp

end LineReader

/-- **A stream is read as its lines**, however it is cut. -/
theorem readLines_eq (stream : List Octets) :
    readLines stream =
      (linesBy 10 13 stream.flatten).map fun line => String.ofList (decodeLossy line) := by
  rw [readLines_flatten, readLines, List.foldl_cons, List.foldl_nil, LineReader.finish_eq,
    LineReader.taken_piece _ _ List.not_mem_nil, linesBy, List.map_map]
  rfl

/-- Its lines are those of the text that it is read as. -/
theorem readLines_eq_map (stream : List Octets) :
    readLines stream =
      (linesBy '\n' '\r' (decodeLossy stream.flatten)).map String.ofList := by
  rw [readLines_eq, linesBy_decodeLossy, List.map_map]
  rfl

/-- Text without a carriage return comes back from its lines. -/
theorem octets_intercalate_readLines (stream : List Octets) {text : List Char}
    (htext : decode? stream.flatten = some text) (hcarriage : 13 ∉ stream.flatten) :
    octets ("\n".intercalate (readLines stream)) ++
      (if stream.flatten.getLast? = some 10 then [10] else []) = stream.flatten := by
  have hcarriage' : '\r' ∉ decodeLossy stream.flatten :=
    mt (mem_decodeLossy_iff encode_carriage (by decide) _).1 hcarriage
  have hjoined : ("\n".intercalate (readLines stream)).toList =
      ['\n'].intercalate (linesBy '\n' '\r' (decodeLossy stream.flatten)) := by
    have hnewline : "\n".toList = ['\n'] := by decide
    have htoList : String.toList ∘ String.ofList = id := funext fun _ => String.toList_ofList
    rw [readLines_eq_map, String.toList_intercalate, hnewline, List.map_map, htoList, List.map_id]
  have hlast : encode (if (decodeLossy stream.flatten).getLast? = some '\n' then ['\n'] else []) =
      if stream.flatten.getLast? = some 10 then [10] else [] := by
    simp only [getLast?_decodeLossy_iff encode_newline (by decide)]
    split
    · exact encode_newline
    · rfl
  rw [octets_eq, hjoined, ← hlast, ← encode_append, intercalate_linesBy hcarriage',
    decodeLossy_of_decode? htext, ← decode?_eq_some_iff.1 htext]

/-- **A stream is read as its lines.** However it arrives, the lines are those of its octets, each
decoded on its own, and those of the text that the whole stream is decoded to. There is one for each
newline, and one more where something stands behind the last. The lines of a text without carriage
returns, joined, are that text but for a newline at its end. -/
theorem readLines_exact (stream : List Octets) :
    let s := stream.flatten
    (∃ lines, (∀ other, IsLines 10 13 s other ↔ other = lines) ∧
      readLines stream = lines.map fun line => String.ofList (decodeLossy line)) ∧
    (∃ lines, (∀ other, IsLines '\n' '\r' (decodeLossy s) other ↔ other = lines) ∧
      readLines stream = lines.map String.ofList) ∧
    (readLines stream).length =
      s.count 10 + (if s = [] ∨ s.getLast? = some 10 then 0 else 1) ∧
    ∀ text, decode? s = some text → 13 ∉ s →
      octets ("\n".intercalate (readLines stream)) ++
        (if s.getLast? = some 10 then [10] else []) = s := by
  refine ⟨⟨_, fun _ => isLines_iff, readLines_eq stream⟩,
    ⟨_, fun _ => isLines_iff, readLines_eq_map stream⟩, ?_, fun text => ?_⟩
  · rw [readLines_eq, List.length_map, length_linesBy]
  · exact octets_intercalate_readLines stream

/-- A stream that is cut inside a character, with an empty line and a newline at its end. -/
theorem readLines_exact_cutCharacter :
    let stream : List Octets := [[0xC3], [0xA4, 10, 10, 98], [10]]
    decode? stream.flatten = some ['ä', '\n', '\n', 'b', '\n'] ∧ 13 ∉ stream.flatten ∧
      octets ("\n".intercalate (readLines stream)) ++
        (if stream.flatten.getLast? = some 10 then [10] else []) = stream.flatten := by
  refine ⟨by decide, by decide, ?_⟩
  exact (readLines_exact [[0xC3], [0xA4, 10, 10, 98], [10]]).2.2.2 ['ä', '\n', '\n', 'b', '\n']
    (by decide) (by decide)

-- A character that the end of its line breaks off, and a last line that is not ended.
example : readLines [[97, 0xE2, 0x82], [13, 10, 98, 13]] = ["a\uFFFD", "b"] := by decide

end CommitGate.Text

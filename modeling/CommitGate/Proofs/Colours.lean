import CommitGate.Cli.Program
import CommitGate.Proofs.Lines

/-!
# Colours

With colours on, an emission stands between the escape sequences of its level. A terminal reads the
output from the left: a sequence changes the styles that are active, any other character is shown in
them. The sequences of an emission are read one by one, since its texts hold no escape character,
and the last of them closes what the others have opened.

Results:

* `readFrom_render_append`: an emission is read on its own, whatever follows it.
* `cells_renderAll`: each text is shown in the styles of its level, and every newline after a text
  in none.
* `erased_renderAll`: without the sequences, the output is the one without colours.
* `perform_color`: the choice of colours changes neither the exit status nor the host.
* `colours_exact`: these for every output, with the way lines are written and what a run does.
-/

namespace CommitGate

/-! ## What a terminal reads -/

/-- The escape sequences of the output. -/
inductive Escape where
  | yellow
  | red
  | green
  | bold
  | reset
deriving DecidableEq, Repr

namespace Escape

def text : Escape → List Char
  | .yellow => ['\x1b', '[', '3', '3', 'm']
  | .red => ['\x1b', '[', '3', '1', 'm']
  | .green => ['\x1b', '[', '3', '2', 'm']
  | .bold => ['\x1b', '[', '1', 'm']
  | .reset => ['\x1b', '[', '0', 'm']

/-- The sequence at the start of a text. -/
def first? (s : List Char) : Option Escape :=
  [.yellow, .red, .green, .bold, .reset].find? fun q : Escape => q.text.isPrefixOf s

/-- The styles that are active after a sequence. -/
def onto (q : Escape) (active : List Escape) : List Escape :=
  if q = .reset then [] else active ++ [q]

end Escape

/-- What a terminal reads at once. -/
inductive Glyph where
  | shown (c : Char)
  | styled (q : Escape)
deriving DecidableEq, Repr

namespace Glyph

/-- The glyphs of a text, after some characters that have been read already. -/
def readFrom : Nat → List Char → List Glyph
  | _, [] => []
  | k + 1, _ :: s => readFrom k s
  | 0, c :: s =>
    match Escape.first? (c :: s) with
    | some q => .styled q :: readFrom (q.text.length - 1) s
    | none => .shown c :: readFrom 0 s

/-- The glyphs of a text. -/
def read (s : String) : List Glyph :=
  readFrom 0 s.toList

/-- The character that is shown. -/
def shown? : Glyph → Option Char
  | .shown c => some c
  | .styled _ => none

/-- The styles that are active after some glyphs. -/
def activeAfter : List Escape → List Glyph → List Escape
  | active, [] => active
  | active, .shown _ :: gs => activeAfter active gs
  | active, .styled q :: gs => activeAfter (q.onto active) gs

/-- The characters that are shown, each with the styles that are active there. -/
def cellsFrom : List Escape → List Glyph → List (Char × List Escape)
  | _, [] => []
  | active, .shown c :: gs => (c, active) :: cellsFrom active gs
  | active, .styled q :: gs => cellsFrom (q.onto active) gs

end Glyph

theorem toList_join (texts : List String) :
    (String.join texts).toList = texts.flatMap String.toList := by
  induction texts with
  | nil => rfl
  | cons t texts ih => rw [String.join_cons, String.toList_append, ih, List.flatMap_cons]

/-- A text without its escape sequences. -/
def erased (s : String) : String :=
  String.ofList ((Glyph.read s).filterMap Glyph.shown?)

/-- The styles that are active at the end of a text. -/
def active (s : String) : List Escape :=
  Glyph.activeAfter [] (Glyph.read s)

/-- What a text looks like. -/
def cells (s : String) : List (Char × List Escape) :=
  Glyph.cellsFrom [] (Glyph.read s)

namespace Escape

theorem first?_text_append (q : Escape) (s : List Char) : first? (q.text ++ s) = some q := by
  cases q <;> rfl

theorem first?_cons_of_ne {c : Char} (hc : c ≠ '\x1b') (s : List Char) :
    first? (c :: s) = none := by
  have hesc : ('\x1b' == c) = false := beq_eq_false_iff_ne.2 (Ne.symm hc)
  have hno (q : Escape) : q.text.isPrefixOf (c :: s) = false := by
    cases q <;> simp [text, List.isPrefixOf, hesc]
  rw [first?, List.find?_eq_none]
  simp [hno]

end Escape

namespace Glyph

theorem readFrom_length_append (p s : List Char) : readFrom p.length (p ++ s) = readFrom 0 s := by
  induction p with
  | nil => rfl
  | cons c p ih => exact ih

/-- An escape sequence is read as such. -/
theorem readFrom_text_append (q : Escape) (s : List Char) :
    readFrom 0 (q.text ++ s) = .styled q :: readFrom 0 s := by
  obtain ⟨c, p, hcp⟩ : ∃ c p, q.text = c :: p := by cases q <;> exact ⟨_, _, rfl⟩
  have hfirst := Escape.first?_text_append q s
  rw [hcp, List.cons_append] at hfirst ⊢
  rw [readFrom, hfirst]
  show _ :: readFrom (q.text.length - 1) (p ++ s) = _
  rw [hcp, List.length_cons, Nat.add_sub_cancel, readFrom_length_append]

theorem readFrom_flatMap_append (qs : List Escape) (s : List Char) :
    readFrom 0 (qs.flatMap Escape.text ++ s) = qs.map .styled ++ readFrom 0 s := by
  induction qs with
  | nil => rfl
  | cons q qs ih =>
    rw [List.flatMap_cons, List.append_assoc, readFrom_text_append, ih, List.map_cons,
      List.cons_append]

/-- A text without an escape character is read as it stands. -/
theorem readFrom_clear_append {p : List Char} (hp : '\x1b' ∉ p) (s : List Char) :
    readFrom 0 (p ++ s) = p.map .shown ++ readFrom 0 s := by
  induction p with
  | nil => rfl
  | cons c p ih =>
    rw [List.mem_cons, not_or] at hp
    rw [List.cons_append, readFrom, Escape.first?_cons_of_ne (Ne.symm hp.1)]
    show _ :: readFrom 0 (p ++ s) = _
    rw [ih hp.2, List.map_cons, List.cons_append]

theorem activeAfter_append (styles : List Escape) (gs gs' : List Glyph) :
    activeAfter styles (gs ++ gs') = activeAfter (activeAfter styles gs) gs' := by
  induction gs generalizing styles with
  | nil => rfl
  | cons g gs ih => cases g <;> exact ih _

theorem cellsFrom_append (styles : List Escape) (gs gs' : List Glyph) :
    cellsFrom styles (gs ++ gs') =
      cellsFrom styles gs ++ cellsFrom (activeAfter styles gs) gs' := by
  induction gs generalizing styles with
  | nil => rfl
  | cons g gs ih =>
    cases g with
    | shown c => exact congrArg _ (ih styles)
    | styled q => exact ih _

@[simp] theorem activeAfter_map_shown (styles : List Escape) (p : List Char) :
    activeAfter styles (p.map .shown) = styles := by
  induction p with
  | nil => rfl
  | cons c p ih => exact ih

@[simp] theorem cellsFrom_map_shown (styles : List Escape) (p : List Char) :
    cellsFrom styles (p.map .shown) = p.map (·, styles) := by
  induction p with
  | nil => rfl
  | cons c p ih => exact congrArg _ ih

@[simp] theorem cellsFrom_map_styled (styles : List Escape) (qs : List Escape) :
    cellsFrom styles (qs.map .styled) = [] := by
  induction qs generalizing styles with
  | nil => rfl
  | cons q qs ih => exact ih _

/-- What is shown is what is left without the sequences. -/
theorem map_fst_cellsFrom (styles : List Escape) (gs : List Glyph) :
    (cellsFrom styles gs).map Prod.fst = gs.filterMap shown? := by
  induction gs generalizing styles with
  | nil => rfl
  | cons g gs ih =>
    cases g with
    | shown c => exact congrArg _ (ih styles)
    | styled q => exact ih _

end Glyph

/-! ## Emissions -/

/-- The styles of a level. -/
def Level.styles : Level → List Escape
  | .plain => []
  | .warning => [.yellow, .bold]
  | .error => [.red, .bold]
  | .success => [.green, .bold]

namespace Emission

/-- No text of the emission holds an escape character. -/
def Clear (e : Emission) : Prop :=
  ∀ l ∈ e.lines, '\x1b' ∉ l.toList

instance (e : Emission) : Decidable e.Clear :=
  inferInstanceAs (Decidable (∀ l ∈ e.lines, '\x1b' ∉ l.toList))

/-- The newline that follows an emission. -/
def ending (e : Emission) : String :=
  if e.ended then "\n" else ""

/-- The sequences that open the styles of an emission. -/
def opening (colors : Bool) (e : Emission) : List Escape :=
  if colors then e.level.styles else []

/-- The sequences that close them. -/
def closing (colors : Bool) (e : Emission) : List Escape :=
  if e.opening colors = [] then [] else [.reset]

/-- The text of an emission but for the newline that follows it. -/
def styled (colors : Bool) (e : Emission) : String :=
  String.ofList ((e.opening colors).flatMap Escape.text ++ e.body.toList ++
    (e.closing colors).flatMap Escape.text)

theorem render_eq (colors : Bool) (e : Emission) :
    e.render colors = e.styled colors ++ e.ending := by
  apply String.toList_injective
  obtain ⟨lines, level, ended⟩ := e
  cases colors <;> cases level <;> cases ended <;>
    simp [render, styled, ending, opening, closing, Level.styles, Level.opening?, Escape.text,
      styleReset]

theorem render_false (e : Emission) : e.render false = e.body ++ e.ending := by
  rw [render_eq, styled]
  simp [opening, closing]

/-- The lines stand one after the other, with a newline behind each but the last. -/
theorem toList_body {e : Emission} {front : List String} {last : String}
    (h : e.lines = front ++ [last]) :
    e.body.toList = front.flatMap (fun l => l.toList ++ ['\n']) ++ last.toList := by
  have hnewline : "\n".toList = ['\n'] := by decide
  rw [body, String.toList_intercalate, h, List.map_append, List.map_singleton, hnewline,
    Text.intercalate_concat, List.flatMap_map]

theorem not_mem_body {e : Emission} (he : e.Clear) : '\x1b' ∉ e.body.toList := by
  rcases List.eq_nil_or_concat e.lines with hnil | ⟨front, last, hlines⟩
  · simp [body, hnil]
  · rw [List.concat_eq_append] at hlines
    rw [Clear, hlines] at he
    rw [toList_body hlines, List.mem_append, List.mem_flatMap]
    rintro (⟨l, hl, hmem⟩ | hmem)
    · rw [List.mem_append] at hmem
      exact hmem.elim (he l (by simp [hl])) (by decide)
    · exact he last (by simp) hmem

/-- What a terminal reads of an emission but for the newline that follows it. -/
def styledGlyphs (colors : Bool) (e : Emission) : List Glyph :=
  (e.opening colors).map .styled ++ e.body.toList.map .shown ++ (e.closing colors).map .styled

/-- What a terminal reads of an emission. -/
def glyphs (colors : Bool) (e : Emission) : List Glyph :=
  e.styledGlyphs colors ++ e.ending.toList.map .shown

/-- What an emission looks like. -/
def cells (colors : Bool) (e : Emission) : List (Char × List Escape) :=
  e.body.toList.map (·, e.opening colors) ++ e.ending.toList.map (·, [])

variable {e : Emission} {es : List Emission}

theorem readFrom_styled_append (he : e.Clear) (colors : Bool) (s : List Char) :
    Glyph.readFrom 0 ((e.styled colors).toList ++ s) =
      e.styledGlyphs colors ++ Glyph.readFrom 0 s := by
  rw [styled, String.toList_ofList, List.append_assoc, List.append_assoc,
    Glyph.readFrom_flatMap_append, Glyph.readFrom_clear_append (not_mem_body he),
    Glyph.readFrom_flatMap_append]
  simp only [styledGlyphs, List.append_assoc]

/-- **An emission is read on its own**, whatever follows it. -/
theorem readFrom_render_append (he : e.Clear) (colors : Bool) (s : List Char) :
    Glyph.readFrom 0 ((e.render colors).toList ++ s) = e.glyphs colors ++ Glyph.readFrom 0 s := by
  have hending : '\x1b' ∉ e.ending.toList := by
    unfold ending
    split <;> decide
  rw [render_eq, String.toList_append, List.append_assoc, readFrom_styled_append he,
    Glyph.readFrom_clear_append hending, glyphs, List.append_assoc]

theorem renderAll_cons (colors : Bool) (e : Emission) (es : List Emission) :
    renderAll colors (e :: es) = e.render colors ++ renderAll colors es := by
  simp [renderAll, String.join_cons]

theorem readFrom_renderAll_append (hes : ∀ e ∈ es, e.Clear) (colors : Bool) (s : List Char) :
    Glyph.readFrom 0 ((renderAll colors es).toList ++ s) =
      es.flatMap (glyphs colors) ++ Glyph.readFrom 0 s := by
  induction es with
  | nil => rfl
  | cons e es ih =>
    obtain ⟨he, hes⟩ := List.forall_mem_cons.1 hes
    rw [renderAll_cons, String.toList_append, List.append_assoc, readFrom_render_append he,
      ih hes, List.flatMap_cons, List.append_assoc]

theorem read_renderAll (hes : ∀ e ∈ es, e.Clear) (colors : Bool) :
    Glyph.read (renderAll colors es) = es.flatMap (glyphs colors) := by
  have h := readFrom_renderAll_append hes colors []
  rwa [List.append_nil, Glyph.readFrom, List.append_nil] at h

/-! ## What is shown -/

theorem activeAfter_opening (colors : Bool) (e : Emission) :
    Glyph.activeAfter [] ((e.opening colors).map .styled) = e.opening colors := by
  obtain ⟨lines, level, ended⟩ := e
  cases colors <;> cases level <;> rfl

theorem activeAfter_closing (colors : Bool) (e : Emission) :
    Glyph.activeAfter (e.opening colors) ((e.closing colors).map .styled) = [] := by
  obtain ⟨lines, level, ended⟩ := e
  cases colors <;> cases level <;> rfl

/-- The styles that an emission opens are closed before the newline that follows it. -/
theorem activeAfter_styledGlyphs (colors : Bool) (e : Emission) :
    Glyph.activeAfter [] (e.styledGlyphs colors) = [] := by
  rw [styledGlyphs, Glyph.activeAfter_append, Glyph.activeAfter_append, activeAfter_opening,
    Glyph.activeAfter_map_shown, activeAfter_closing]

theorem activeAfter_glyphs (colors : Bool) (e : Emission) :
    Glyph.activeAfter [] (e.glyphs colors) = [] := by
  rw [glyphs, Glyph.activeAfter_append, activeAfter_styledGlyphs, Glyph.activeAfter_map_shown]

theorem cellsFrom_glyphs (colors : Bool) (e : Emission) :
    Glyph.cellsFrom [] (e.glyphs colors) = e.cells colors := by
  rw [glyphs, Glyph.cellsFrom_append, activeAfter_styledGlyphs, styledGlyphs,
    Glyph.cellsFrom_append, Glyph.cellsFrom_append, activeAfter_opening,
    Glyph.cellsFrom_map_styled, Glyph.cellsFrom_map_styled, Glyph.cellsFrom_map_shown,
    Glyph.cellsFrom_map_shown, List.nil_append, List.append_nil, cells]

theorem activeAfter_flatMap_glyphs (colors : Bool) (es : List Emission) :
    Glyph.activeAfter [] (es.flatMap (glyphs colors)) = [] := by
  induction es with
  | nil => rfl
  | cons e es ih => rw [List.flatMap_cons, Glyph.activeAfter_append, activeAfter_glyphs, ih]

/-- **No style is active where an emission ends.** -/
theorem active_renderAll (hes : ∀ e ∈ es, e.Clear) (colors : Bool) :
    active (renderAll colors es) = [] := by
  rw [active, read_renderAll hes, activeAfter_flatMap_glyphs]

/-- None is active either before the newline that follows it. -/
theorem active_renderAll_styled {before : List Emission} (hbefore : ∀ x ∈ before, x.Clear)
    (he : e.Clear) (colors : Bool) :
    active (renderAll colors before ++ e.styled colors) = [] := by
  have hread := readFrom_styled_append he colors []
  rw [List.append_nil, Glyph.readFrom, List.append_nil] at hread
  rw [active, Glyph.read, String.toList_append, readFrom_renderAll_append hbefore, hread,
    Glyph.activeAfter_append, activeAfter_flatMap_glyphs, activeAfter_styledGlyphs]

theorem cells_renderAll (hes : ∀ e ∈ es, e.Clear) (colors : Bool) :
    CommitGate.cells (renderAll colors es) = es.flatMap (cells colors) := by
  rw [CommitGate.cells, read_renderAll hes]
  clear hes
  induction es with
  | nil => rfl
  | cons e es ih =>
    rw [List.flatMap_cons, Glyph.cellsFrom_append, activeAfter_glyphs, cellsFrom_glyphs, ih,
      List.flatMap_cons]

/-- An emission shows what is written of it without colours. -/
theorem map_fst_cells (colors : Bool) (e : Emission) :
    (e.cells colors).map Prod.fst = (e.render false).toList := by
  have hfst (styles : List Escape) (p : List Char) : (p.map (·, styles)).map Prod.fst = p := by
    rw [List.map_map]
    exact List.map_id p
  rw [cells, List.map_append, hfst, hfst, render_false, String.toList_append]

/-- **Without the sequences, the output is the one without colours.** -/
theorem erased_renderAll (hes : ∀ e ∈ es, e.Clear) :
    erased (renderAll true es) = renderAll false es := by
  apply String.toList_injective
  rw [erased, String.toList_ofList, ← Glyph.map_fst_cellsFrom [], ← CommitGate.cells,
    cells_renderAll hes, List.map_flatMap, renderAll, toList_join, List.flatMap_map]
  exact congrArg (es.flatMap ·) (funext (map_fst_cells true))

end Emission

/-! ## The program -/

namespace Cli

variable {σ α : Type}

/-- Colours are seen on the standard output only. -/
theorem Output.ofTrace_colours (colors colors' : Bool) (status : α → Nat) (t : Trace σ α) :
    ofTrace colors status t = { ofTrace colors' status t with standard := t.text colors } := by
  unfold ofTrace
  cases t.result <;> rfl

theorem Output.status_ofTrace_colours (colors colors' : Bool) (status : α → Nat) (t : Trace σ α) :
    (ofTrace colors status t).status = (ofTrace colors' status t).status := by
  rw [ofTrace_colours colors colors']

/-- A call with colours on and one with colours off end in the same way. -/
def SameEnd (a b : Output × Host) : Prop :=
  a.2 = b.2 ∧ a.1.status = b.1.status

theorem sameEnd_runGate [Toml.Diagnosis] (colors colors' : Bool) (file : Option Path)
    (o : RunOptions) (h : Host) :
    SameEnd (runGate colors file o h) (runGate colors' file o h) := by
  unfold runGate
  split
  · exact ⟨rfl, rfl⟩
  split
  · exact ⟨rfl, rfl⟩
  · exact ⟨rfl, Output.status_ofTrace_colours ..⟩

theorem sameEnd_writeConfig (colors colors' : Bool) (preset : Option Preset) (force : Bool)
    (h : Host) :
    SameEnd (writeConfig colors preset force h) (writeConfig colors' preset force h) := by
  unfold writeConfig
  dsimp only
  split
  · exact ⟨rfl, rfl⟩
  split
  · exact ⟨rfl, rfl⟩
  split <;> exact ⟨rfl, rfl⟩

theorem sameEnd_onHooks {f : Host → Path → Except Failure α × Host} {report report' : α → Output}
    (hreport : ∀ a, (report a).status = (report' a).status) (h : Host) :
    SameEnd (onHooks f report h) (onHooks f report' h) := by
  unfold onHooks
  split
  · exact ⟨rfl, rfl⟩
  split
  · exact ⟨rfl, hreport _⟩
  · exact ⟨rfl, rfl⟩

theorem status_scanProject [Toml.Diagnosis] (colors colors' : Bool) (file root : Option Path)
    (json : Bool) (h : Host) :
    (scanProject colors file root json h).status =
      (scanProject colors' file root json h).status := by
  unfold scanProject
  split
  · rfl
  · exact Output.status_ofTrace_colours ..

theorem status_showConfig [Toml.Diagnosis] (colors colors' : Bool) (given : Option Path)
    (raw : Bool) (h : Host) :
    (showConfig colors given raw h).status = (showConfig colors' given raw h).status := by
  unfold showConfig
  split
  · rfl
  · split <;> rfl

/-- **The choice of colours changes neither the exit status nor the host.** -/
theorem perform_color [Toml.Diagnosis] (i : Invocation) (color : ColorChoice) (h : Host) :
    SameEnd ({ i with color := color }.perform h) (i.perform h) := by
  unfold Invocation.perform
  generalize color.isOn h = colors
  generalize i.color.isOn h = colors'
  cases i.command.getD (.run {}) with
  | run o => exact sameEnd_runGate colors colors' i.config o h
  | scan root json => exact ⟨rfl, status_scanProject colors colors' i.config root json h⟩
  | init preset force => exact sameEnd_writeConfig colors colors' preset force h
  | install force => exact sameEnd_onHooks (fun a => by cases a <;> rfl) h
  | uninstall => exact sameEnd_onHooks (fun a => by cases a <;> rfl) h
  | config raw => exact ⟨rfl, status_showConfig colors colors' i.config raw h⟩
  | completions shell => exact ⟨rfl, rfl⟩

end Cli

open Emission (renderAll)

/-- **Colours are added to an output and change nothing else.** Without the escape sequences, an
output without an escape character of its own is the one that is written without colours. Its
characters are shown in the styles of their level, the newline behind an emission in none: what an
emission opens is closed within it, before that newline. The lines of an emission stand one after
the other, and a newline follows the last where that is asked for. What a run says, asks and calls
is the same with colours on and off, only its text differs; and every call ends with the same status
and leaves the same host. -/
theorem colours_exact [Toml.Diagnosis] :
    (∀ es : List Emission, (∀ e ∈ es, e.Clear) →
      erased (renderAll true es) = renderAll false es ∧
      cells (renderAll true es) = es.flatMap (fun e =>
        e.body.toList.map (·, e.level.styles) ++ if e.ended then [('\n', [])] else []) ∧
      active (renderAll true es) = [] ∧
      ∀ before e after, es = before ++ e :: after →
        active (renderAll true before) = [] ∧
        ∃ styled, e.render true = styled ++ (if e.ended then "\n" else "") ∧
          active (renderAll true before ++ styled) = []) ∧
    (∀ e : Emission,
      (e.lines = [] → e.render false = if e.ended then "\n" else "") ∧
      ∀ front last, e.lines = front ++ [last] →
        e.render false =
          String.join (front.map (· ++ "\n")) ++ last ++ (if e.ended then "\n" else "")) ∧
    (∀ (σ : Type) (c : Config) (s : Surroundings σ) (w : σ),
      let t := c.run.run s w
      Cli.Output.ofTrace true RunOutcome.exitStatus t =
        { Cli.Output.ofTrace false RunOutcome.exitStatus t with standard := t.text true } ∧
      ((∀ e ∈ t.said, e.Clear) → erased (t.text true) = t.text false)) ∧
    ∀ (i : Cli.Invocation) (color : Cli.ColorChoice) (h : Host),
      let other : Cli.Invocation := { i with color := color }
      (other.perform h).2 = (i.perform h).2 ∧
        (other.perform h).1.status = (i.perform h).1.status := by
  refine ⟨fun es hes => ⟨Emission.erased_renderAll hes, ?_, Emission.active_renderAll hes true, ?_⟩,
    fun e => ⟨?_, ?_⟩, fun σ c s w => ⟨Cli.Output.ofTrace_colours .., Emission.erased_renderAll⟩,
    Cli.perform_color⟩
  · have hcells : Emission.cells true = fun e =>
        e.body.toList.map (·, e.level.styles) ++ if e.ended then [('\n', [])] else [] := by
      funext e
      rw [Emission.cells, Emission.ending]
      split <;> rfl
    rw [Emission.cells_renderAll hes, hcells]
  · rintro before e after rfl
    have hbefore : ∀ x ∈ before, x.Clear := fun x hx => hes x (List.mem_append_left _ hx)
    exact ⟨Emission.active_renderAll hbefore true, e.styled true, Emission.render_eq true e,
      Emission.active_renderAll_styled hbefore (hes e (by simp)) true⟩
  · intro hnil
    rw [Emission.render_false, Emission.body, hnil]
    exact String.empty_append
  · intro front last hlines
    apply String.toList_injective
    rw [Emission.render_false, String.toList_append, Emission.toList_body hlines,
      String.toList_append, String.toList_append, toList_join, List.flatMap_map]
    simp only [String.toList_append]
    rfl

attribute [local instance] Toml.Diagnosis.silent

/-- A warning of two lines, and a question that the output goes on after. -/
theorem colours_exact_warning :
    let es : List Emission := [⟨["first", "second"], .warning, true⟩, .inline "Go on? "]
    (∀ e ∈ es, e.Clear) ∧
      renderAll true es = "\x1b[33m\x1b[1mfirst\nsecond\x1b[0m\nGo on? " ∧
      erased (renderAll true es) = renderAll false es ∧
      renderAll false es = "first\nsecond\nGo on? " := by
  have hclear : ∀ e ∈ ([⟨["first", "second"], .warning, true⟩, .inline "Go on? "] : List Emission),
      e.Clear := by
    decide
  exact ⟨hclear, by decide, (colours_exact.1 _ hclear).1, by decide⟩

end CommitGate

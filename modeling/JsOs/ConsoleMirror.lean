import JsOs.ConsoleRefinement
import JsOs.SerialTransmitter

/-!
# The serial line mirrors the screen

Every text goes to the serial port before it is drawn. So whoever reads the line knows the
characters on the screen, and where the cursor is; the colours do not go over the line.
-/

namespace JsOs.ConsoleMirror

open TextGrid ConsoleModel ConsoleRefinement FramebufferModel FramebufferPainting PortPrograms
open PortProgram SerialModel SerialLine SerialTransmitter TransitionRuns

structure Terminal where
  screen : FramebufferState
  line : Uart

/-- The whole of `console_write_n`. -/
def terminalWriteN (svga : Svga) (t : Timing) (s : Terminal) (text : Option (List UInt8)) :
    Option Terminal :=
  (consoleWriteN svga s.screen text).map fun screen =>
    ⟨screen, (run (uart t) (serialWriteN text) s.line).2⟩

def Terminal.perform (svga : Svga) (t : Timing) (s : Terminal) : ConsoleCall → Option Terminal
  | .setColors foreground background =>
    some { s with screen := consoleSetColors s.screen foreground background }
  | .write text => terminalWriteN svga t s text

/-- A call that moves no stale pixels onto the last row. -/
def TerminalStep (svga : Svga) (t : Timing) (s : Terminal) (c : ConsoleCall) (s' : Terminal) : Prop :=
  CleanCall svga s.screen c ∧ s.perform svga t c = some s'

section Characters

def character : Cell → Option UInt8
  | .blank _ => none
  | .glyph c _ _ => some c

variable {columns rows : ℕ} {g g' : Grid columns rows}

/-- The same characters in the same cells, in whatever colours. -/
structure SameText (g g' : Grid columns rows) : Prop where
  column : g.column = g'.column
  row : g.row = g'.row
  character : ∀ column row, character (g.cell column row) = character (g'.cell column row)

namespace SameText

theorem refl (g : Grid columns rows) : SameText g g := ⟨rfl, rfl, fun _ _ => rfl⟩

theorem put {c c' : Cell} (h : SameText g g')
    (hc : ConsoleMirror.character c = ConsoleMirror.character c') :
    SameText (g.put c) (g'.put c') := by
  refine ⟨h.column, h.row, fun column row => ?_⟩
  unfold Grid.put
  dsimp only
  rw [h.column, h.row]
  split_ifs
  · exact hc
  · exact h.character column row

theorem carriageReturn (h : SameText g g') : SameText g.carriageReturn g'.carriageReturn :=
  ⟨rfl, h.row, h.character⟩

theorem newline (h : SameText g g') : SameText g.newline g'.newline := by
  by_cases hlast : g.row + 1 < rows
  · rw [Grid.newline_of_lt g hlast, Grid.newline_of_lt g' (h.row ▸ hlast)]
    exact ⟨rfl, congrArg (· + 1) h.row, h.character⟩
  · have hlast' : ¬g'.row + 1 < rows := h.row ▸ hlast
    refine ⟨by rw [Grid.newline_column, Grid.newline_column], ?_, fun column row => ?_⟩
    · rw [Grid.newline_row_of_last g hlast, Grid.newline_row_of_last g' hlast', h.row]
    · rw [Grid.newline_cell_of_last g hlast, Grid.newline_cell_of_last g' hlast']
      split_ifs
      · exact h.character column (row + 1)
      · rfl

theorem forward (h : SameText g g') : SameText g.forward g'.forward := by
  unfold Grid.forward
  simp only [← h.column]
  split_ifs
  · exact ⟨rfl, h.row, h.character⟩
  · exact h.newline

theorem back (h : SameText g g') : SameText g.back g'.back := by
  refine ⟨?_, ?_, fun column row => ?_⟩
  · unfold Grid.back
    simp only [← h.column, ← h.row]
    split_ifs
    · rfl
    · rfl
    · exact h.column
  · unfold Grid.back
    simp only [← h.column, ← h.row]
    split_ifs
    · rfl
    · rfl
    · exact h.row
  · rw [Grid.back_cell, Grid.back_cell]
    exact h.character column row

theorem byte (h : SameText g g') (b : UInt8) : SameText (g.byte b) (g'.byte b) := by
  unfold Grid.byte
  split_ifs
  · exact h.back.put rfl
  · exact h.carriageReturn
  · exact h.newline
  · have hput : SameText (g.put (.glyph b g.foreground g.background))
        (g'.put (.glyph b g'.foreground g'.background)) := h.put rfl
    exact hput.forward

theorem text (h : SameText g g') (text : List UInt8) :
    SameText (text.foldl Grid.byte g) (text.foldl Grid.byte g') := by
  induction text generalizing g g' with
  | nil => exact h
  | cons b text ih => exact ih (h.byte b)

end SameText

end Characters

section Runs

variable {svga : Svga} {t : Timing} {before : List Frame} {lost : List UInt8} {columns rows : ℕ}

theorem Sends.writeN (ht : Prompt t) {u : Uart} {sent : List UInt8} (h : Sends before lost sent u)
    (text : List UInt8) :
    Sends before lost (sent ++ crlf text) (run (uart t) (serialWriteN (some text)) u).2 := by
  rw [serialWriteN_eq]
  refine forEach_invariant (fun done u => Sends before lost (sent ++ done) u)
    (fun done c u hsends => ?_) (crlf text) (by rwa [List.append_nil])
  rw [← List.append_assoc]
  exact hsends.putc_prompt ht c

/-- The line has carried a text, and the screen shows the characters that it makes. -/
def Mirrors (before : List Frame) (lost : List UInt8) (start : Grid columns rows) (s : Terminal) :
    Prop :=
  ∃ text g, Sends before lost (crlf text) s.line ∧ Shows s.screen g ∧
    SameText g (text.foldl Grid.byte start)

theorem Mirrors.step {start : Grid columns rows} {s s' : Terminal} {c : ConsoleCall}
    (hsvga : SoftwareAlike svga) (ht : Prompt t) (hrows : 2 ≤ rows)
    (h : Mirrors before lost start s) (hstep : TerminalStep svga t s c s') :
    Mirrors before lost start s' := by
  obtain ⟨text, g, hline, hshows, hsame⟩ := h
  obtain ⟨hclean, hperform⟩ := hstep
  obtain ⟨screen, hscreen, hshows'⟩ := hshows.call hsvga hrows c hclean
  cases c with
  | setColors foreground background =>
    cases hperform
    cases hscreen
    exact ⟨text, _, hline, hshows', ⟨hsame.column, hsame.row, hsame.character⟩⟩
  | write written =>
    obtain ⟨screen', hscreen', rfl⟩ := Option.map_eq_some_iff.mp hperform
    obtain rfl : screen' = screen := Option.some.inj (hscreen'.symm.trans hscreen)
    refine ⟨text ++ written.getD [], _, ?_, hshows', ?_⟩
    · cases written with
      | none =>
        rw [Option.getD_none, List.append_nil]
        exact hline
      | some written =>
        rw [Option.getD_some, crlf_append]
        exact Sends.writeN ht hline written
    · rw [List.foldl_append]
      exact hsame.text _

theorem CleanStep.write {s : Terminal} {text : Option (List UInt8)} {screen : FramebufferState}
    (h : CleanStep svga s.screen (.write text) screen) (t : Timing) :
    ∃ s', TerminalStep svga t s (.write text) s' := by
  have hwrite : consoleWriteN svga s.screen text = some screen := h.2
  have hperform : s.perform svga t (.write text) =
      some ⟨screen, (run (uart t) (serialWriteN text) s.line).2⟩ := by
    rw [Terminal.perform, terminalWriteN, hwrite, Option.map_some]
  exact ⟨_, h.1, hperform⟩

/-- After a clear and any calls that move no stale pixels onto the last row, the bytes on the line
since the initialization of the port, with each newline read as the driver writes it, make the
characters on the screen and the place of the cursor. -/
theorem run_mirrored {st : FramebufferState} (S : Screen st) (hsvga : SoftwareAlike svga)
    (hwidth : 16 ≤ st.info.width) (hheight : 32 ≤ st.info.height) (ht : Prompt t) (u : Uart)
    {background : UInt32} {calls : List ConsoleCall} {s : Terminal}
    (hrun : Run (TerminalStep svga t)
      ⟨consoleClear svga st background, (run (uart t) serialInit u).2⟩ calls s) :
    ∃ sent : List Frame, s.line.frames = (run (uart t) serialInit u).2.wire ++ sent ∧
      ∃ g : Grid (st.info.width / 8) (st.info.height / 16), Shows s.screen g ∧
        SameText g ((newlines (sent.map Frame.byte)).foldl Grid.byte
          (Grid.clear (two_le_columns hwidth) (two_le_rows hheight) 0 0)) := by
  have hstart : Mirrors (run (uart t) serialInit u).2.wire u.lost
      (Grid.clear (two_le_columns hwidth) (two_le_rows hheight) 0 0)
      ⟨consoleClear svga st background, (run (uart t) serialInit u).2⟩ :=
    ⟨[], _, serialInit_sends t u, consoleClear_shows S hsvga hwidth hheight background,
      ⟨rfl, rfl, fun _ _ => rfl⟩⟩
  obtain ⟨text, g, hline, hshows, hsame⟩ := hrun.invariant (Mirrors _ u.lost _)
    (fun _ _ _ h hstep => h.step hsvga ht (two_le_rows hheight) hstep) hstart
  refine ⟨(crlf text).map standard, hline.frames, g, hshows, ?_⟩
  rwa [newlines_standard]

/-- In new colours a newline and two letters, of which the second wraps and scrolls, then a newline
that scrolls again, over a line on which one byte leaves before each access. -/
theorem run_mirrored_twoRows :
    let t : Timing := ⟨fun _ => 1, fun _ => 0, fun _ _ => 0⟩
    let u : Uart := ⟨0, 0, 0, 0, 0x80, 0x10, [7], [], [], 0⟩
    ∃ s : Terminal, Run (TerminalStep Svga.absent t)
        ⟨consoleClear Svga.absent (twoRows 40) 3, (run (uart t) serialInit u).2⟩
        [.setColors 1 3, .write (some [10, 65, 66, 10])] s ∧
      ∃ sent : List Frame, s.line.frames = (run (uart t) serialInit u).2.wire ++ sent ∧
        ∃ g : Grid ((twoRows 40).info.width / 8) ((twoRows 40).info.height / 16),
          Shows s.screen g ∧ SameText g ((newlines (sent.map Frame.byte)).foldl Grid.byte
            (Grid.clear (two_le_columns (by decide)) (two_le_rows (by decide)) 0 0)) := by
  intro t u
  obtain ⟨v, st', hcolors, hwrite⟩ := twoRows_clean [10, 65, 66, 10]
  let shown : Terminal := ⟨v, (run (uart t) serialInit u).2⟩
  obtain ⟨s, hs⟩ := CleanStep.write (s := shown) hwrite t
  have hrun : Run (TerminalStep Svga.absent t)
      ⟨consoleClear Svga.absent (twoRows 40) 3, (run (uart t) serialInit u).2⟩
      [.setColors 1 3, .write (some [10, 65, 66, 10])] s :=
    .cons ⟨trivial, by rw [Terminal.perform, hcolors]⟩ (.cons hs (.nil s))
  exact ⟨_, hrun, run_mirrored twoRows_screen softwareAlike_absent (by decide) (by decide)
    (fun _ => ⟨0, by decide, Nat.one_pos⟩) u hrun⟩

end Runs

end JsOs.ConsoleMirror

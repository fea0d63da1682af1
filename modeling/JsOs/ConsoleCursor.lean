import JsOs.ConsoleRefinement

/-!
# The cursor of the console

From the first call on, whatever is written, the cursor stands on a cell of the text grid after
every byte. Each cell that is painted lies on the screen, and a scroll begins one row below the
last and ends on it.
-/

namespace JsOs.ConsoleCursor

open MachineWords FramebufferModel FramebufferPainting ConsoleModel ConsoleRefinement TransitionRuns

/-- The calls on the console that move its cursor or set its colours. -/
inductive CursorCall where
  | clear (background : UInt32)
  | setColors (foreground background : UInt32)
  | setCursor (column row : ℕ)
  | write (text : List UInt8)
  deriving DecidableEq, Repr

/-- What is seen of a write: the cells that are painted, the rows where a scroll begins and ends,
and the cursor after each byte. -/
inductive Mark where
  | character (column row : ℕ)
  | erase (column row : ℕ)
  | scroll (before after : ℕ)
  | cursor (column row : ℕ)
  deriving DecidableEq, Repr

section Marks

variable (svga : Svga) (st : FramebufferState)

/-- The end of a byte: the scroll, where there is one. -/
def scrollMarks (rows : ℕ) (marks : List Mark) : Option (List Mark × FramebufferState) :=
  if st.cursorRow ≥ rows then
    (consoleScroll svga st).map fun st' =>
      (marks ++ [.scroll st.cursorRow st'.cursorRow, .cursor st'.cursorColumn st'.cursorRow], st')
  else some (marks ++ [.cursor st.cursorColumn st.cursorRow], st)

/-- `consoleByte`, with what is seen of it. -/
def byteMarks (columns rows : ℕ) (character : UInt8) : Option (List Mark × FramebufferState) :=
  if character = 8 then
    let st := stepBack st columns
    (fillCell svga st st.cursorColumn st.cursorRow st.background).map fun st' =>
      ([.erase st.cursorColumn st.cursorRow, .cursor st'.cursorColumn st'.cursorRow], st')
  else if character = 13 then
    some ([.cursor 0 st.cursorRow], { st with cursorColumn := 0 })
  else if character = 10 then scrollMarks svga (nextLine st) rows []
  else (putCharacter svga st columns character).bind fun st' =>
    scrollMarks svga st' rows [.character st.cursorColumn st.cursorRow]

def textMarks (columns rows : ℕ) : FramebufferState → List UInt8 →
    Option (List Mark × FramebufferState)
  | st, [] => some ([], st)
  | st, b :: text => (byteMarks svga st columns rows b).bind fun x =>
    (textMarks columns rows x.2 text).map fun y => (x.1 ++ y.1, y.2)

def CursorCall.perform : CursorCall → Option (List Mark × FramebufferState)
  | .clear background => some ([], consoleClear svga st background)
  | .setColors foreground background => some ([], consoleSetColors st foreground background)
  | .setCursor column row => some ([], consoleSetCursor st column row)
  | .write text =>
    if !st.initialized then some ([], st)
    else textMarks svga (st.info.width / consoleCellWidth) (st.info.height / consoleCellHeight) st
      text

theorem scrollMarks_snd (rows : ℕ) (marks : List Mark) :
    (scrollMarks svga st rows marks).map Prod.snd =
      if st.cursorRow ≥ rows then consoleScroll svga st else some st := by
  unfold scrollMarks
  split_ifs with hrow
  · rw [Option.map_map]
    exact Option.map_id'
  · rfl

theorem byteMarks_snd (columns rows : ℕ) (b : UInt8) :
    (byteMarks svga st columns rows b).map Prod.snd = consoleByte svga st columns rows b := by
  unfold byteMarks consoleByte
  split_ifs with hback hreturn hline
  · rw [Option.map_map]
    exact Option.map_id'
  · rfl
  · exact scrollMarks_snd svga (nextLine st) rows []
  · rw [Option.map_bind]
    congr 1
    funext st'
    exact scrollMarks_snd svga st' rows _

theorem textMarks_snd (columns rows : ℕ) (text : List UInt8) :
    (textMarks svga columns rows st text).map Prod.snd =
      text.foldlM (fun st b => consoleByte svga st columns rows b) st := by
  induction text generalizing st with
  | nil => rfl
  | cons b text ih =>
    rw [textMarks, List.foldlM_cons, ← byteMarks_snd, Option.map_bind]
    cases byteMarks svga st columns rows b with
    | none => rfl
    | some x =>
      have hrest := ih x.2
      simp only [Option.bind_some, Function.comp_apply, Option.map_map, Option.map_some] at hrest ⊢
      exact hrest

/-- The marks change nothing. -/
theorem perform_write_snd (text : List UInt8) :
    ((CursorCall.write text).perform svga st).map Prod.snd = consoleWriteN svga st (some text) := by
  unfold CursorCall.perform consoleWriteN
  dsimp only
  split_ifs with hready
  · rfl
  · exact textMarks_snd svga st _ _ text

end Marks

/-- The cursor stands on a cell of a screen of at least two columns and two rows. -/
structure OnGrid (st : FramebufferState) : Prop where
  screen : Screen st
  columns_ge : 2 ≤ st.info.width / 8
  rows_ge : 2 ≤ st.info.height / 16
  column_lt : st.cursorColumn < st.info.width / 8
  row_lt : st.cursorRow < st.info.height / 16

/-- What is to hold of a mark: a painted cell lies on the screen, a scroll begins below the last row
and ends on it, and the cursor is on the grid. -/
def Mark.Fine (width height : ℕ) : Mark → Prop
  | .character column row => 8 * (column + 1) ≤ width ∧ 16 * (row + 1) ≤ height
  | .erase column row => 8 * (column + 1) ≤ width ∧ 16 * (row + 1) ≤ height
  | .scroll before after => before = height / 16 ∧ after + 1 = height / 16
  | .cursor column row => column < width / 8 ∧ row < height / 16

section Bytes

variable {svga : Svga} {st st' : FramebufferState} {marks : List Mark}

/-- The result of a step: the cursor is still on the grid of the same screen, and the marks are
fine. -/
def Good (st : FramebufferState) (marks : List Mark) (st' : FramebufferState) : Prop :=
  OnGrid st' ∧ st'.info = st.info ∧ ∀ mark ∈ marks, mark.Fine st.info.width st.info.height

theorem OnGrid.moveCursor (G : OnGrid st) {column row : ℕ} (hc : column < st.info.width / 8)
    (hr : row < st.info.height / 16) :
    OnGrid { st with cursorColumn := column, cursorRow := row } :=
  ⟨G.screen.of_eq rfl rfl rfl, G.columns_ge, G.rows_ge, hc, hr⟩

theorem OnGrid.of_info (G : OnGrid st) (S : Screen st') (hinfo : st'.info = st.info)
    (hc : st'.cursorColumn < st.info.width / 8) (hr : st'.cursorRow < st.info.height / 16) :
    OnGrid st' := by
  have hcolumns := G.columns_ge
  have hrows := G.rows_ge
  rw [← hinfo] at hcolumns hrows hc hr
  exact ⟨S, hcolumns, hrows, hc, hr⟩

theorem OnGrid.congr (G : OnGrid st) (h : SameFrame st st') : OnGrid st' := by
  refine G.of_info (G.screen.congr h) h.info_eq ?_ ?_
  · rw [h]
    exact G.column_lt
  · rw [h]
    exact G.row_lt

theorem OnGrid.cell_fits (G : OnGrid st) :
    8 * (st.cursorColumn + 1) ≤ st.info.width ∧ 16 * (st.cursorRow + 1) ≤ st.info.height := by
  have hc := G.column_lt
  have hr := G.row_lt
  omega

theorem OnGrid.stepBack (G : OnGrid st) :
    OnGrid (stepBack st (st.info.width / 8)) ∧
      (ConsoleModel.stepBack st (st.info.width / 8)).info = st.info := by
  have hc := G.column_lt
  have hr := G.row_lt
  unfold ConsoleModel.stepBack
  split_ifs with hleft hup
  · exact ⟨G.moveCursor (Nat.lt_of_le_of_lt (Nat.sub_le ..) hc) hr, rfl⟩
  · exact ⟨G.moveCursor (Nat.sub_lt hup.2 Nat.one_pos)
      (Nat.lt_of_le_of_lt (Nat.sub_le ..) hr), rfl⟩
  · exact ⟨G, rfl⟩

theorem OnGrid.add64_row (G : OnGrid st) : add64 st.cursorRow 1 = st.cursorRow + 1 := by
  have hr := G.row_lt
  have hH := G.screen.height_lt
  exact add64_eq (by omega)

theorem OnGrid.add64_column (G : OnGrid st) : add64 st.cursorColumn 1 = st.cursorColumn + 1 := by
  have hc := G.column_lt
  have hW := G.screen.width_lt
  exact add64_eq (by omega)

/-- The scroll at the end of a line. -/
theorem OnGrid.scroll (G : OnGrid st) (hsvga : SoftwareAlike svga) {u : FramebufferState}
    (hu : u = { st with memory := u.memory, cursorColumn := 0, cursorRow := st.cursorRow + 1 })
    (hmarks : ∀ mark ∈ marks, mark.Fine st.info.width st.info.height) :
    ∃ marks' st', scrollMarks svga u (st.info.height / 16) marks = some (marks', st') ∧
      Good st marks' st' := by
  have hr := G.row_lt
  have hrows := G.rows_ge
  have hcolumn_pos : 0 < st.info.width / 8 := Nat.zero_lt_of_lt G.columns_ge
  have hscreen : Screen u := by
    rw [hu]
    exact G.screen.of_eq rfl rfl rfl
  have hinfo : u.info = st.info := by rw [hu]
  have hcolumn : u.cursorColumn = 0 := by rw [hu]
  have hrow : u.cursorRow = st.cursorRow + 1 := by rw [hu]
  unfold scrollMarks
  by_cases hlast : u.cursorRow ≥ st.info.height / 16
  · obtain ⟨st', heq, M⟩ := consoleScroll_scrolled hscreen hsvga
      (show 16 < u.info.height by rw [hinfo]; omega) (by omega)
    have hinfo' : st'.info = st.info := M.info_eq.trans hinfo
    have hcolumn' : st'.cursorColumn = 0 := M.column_eq.trans hcolumn
    have hrow' : st'.cursorRow = st.cursorRow := by
      rw [M.row_eq, hrow, Nat.add_sub_cancel]
    rw [if_pos hlast, heq]
    refine ⟨_, st', rfl, G.of_info M.screen hinfo' (by omega) (by omega), hinfo',
      fun mark hmark => ?_⟩
    · rcases List.mem_append.mp hmark with hmark | hmark
      · exact hmarks mark hmark
      · simp only [List.mem_cons, List.not_mem_nil, or_false] at hmark
        rcases hmark with rfl | rfl
        · exact ⟨by omega, by omega⟩
        · exact ⟨by omega, by omega⟩
  · rw [if_neg hlast]
    refine ⟨_, u, rfl, G.of_info hscreen hinfo (by omega) (by omega), hinfo,
      fun mark hmark => ?_⟩
    · rcases List.mem_append.mp hmark with hmark | hmark
      · exact hmarks mark hmark
      · rw [List.mem_singleton.mp hmark]
        exact ⟨by omega, by omega⟩

/-- A character: it is painted at the cursor, which then stands behind it or at the next row. -/
theorem OnGrid.putCharacter (G : OnGrid st) (hsvga : SoftwareAlike svga) (b : UInt8) :
    ∃ u, putCharacter svga st (st.info.width / 8) b = some u ∧
      (st.cursorColumn + 1 < st.info.width / 8 ∧
          u = { st with memory := u.memory, cursorColumn := st.cursorColumn + 1 } ∨
        u = { st with memory := u.memory, cursorColumn := 0, cursorRow := st.cursorRow + 1 }) := by
  obtain ⟨v, heq, hframe, -⟩ := consoleCharacter_spec G.screen hsvga G.column_lt G.row_lt b
  have hcolumn : add64 v.cursorColumn 1 = st.cursorColumn + 1 := by
    rw [hframe]
    exact G.add64_column
  have hrow : add64 v.cursorRow 1 = st.cursorRow + 1 := by
    rw [hframe]
    exact G.add64_row
  unfold ConsoleModel.putCharacter nextLine
  rw [heq, Option.map_some]
  dsimp only
  rw [hcolumn, hrow]
  by_cases hwrap : st.cursorColumn + 1 ≥ st.info.width / 8
  · rw [if_pos hwrap]
    refine ⟨_, rfl, Or.inr ?_⟩
    rw [hframe]
  · rw [if_neg hwrap]
    refine ⟨_, rfl, Or.inl ⟨Nat.lt_of_not_le hwrap, ?_⟩⟩
    rw [hframe]

/-- A backspace: the cell it erases is the one where the cursor then stands. -/
theorem OnGrid.erase (G : OnGrid st) (hsvga : SoftwareAlike svga) :
    ∃ marks st', byteMarks svga st (st.info.width / 8) (st.info.height / 16) 8 = some (marks, st') ∧
      Good st marks st' := by
  obtain ⟨hstep, hinfo⟩ := G.stepBack
  obtain ⟨st', heq, P⟩ := fillCell_paints hstep.screen hsvga hstep.column_lt hstep.row_lt
    (ConsoleModel.stepBack st (st.info.width / 8)).background
  have hgrid := hstep.congr P.frame
  have hinfo' : st'.info = st.info := P.frame.info_eq.trans hinfo
  unfold byteMarks
  rw [if_pos rfl]
  dsimp only
  rw [heq]
  refine ⟨_, st', rfl, hgrid, hinfo', fun mark hmark => ?_⟩
  simp only [List.mem_cons, List.not_mem_nil, or_false] at hmark
  rcases hmark with rfl | rfl
  · have hfits := hstep.cell_fits
    rw [hinfo] at hfits
    exact hfits
  · rw [← hinfo']
    exact ⟨hgrid.column_lt, hgrid.row_lt⟩

theorem OnGrid.character (G : OnGrid st) (hsvga : SoftwareAlike svga) (b : UInt8) :
    ∃ marks st', ((ConsoleModel.putCharacter svga st (st.info.width / 8) b).bind fun st' =>
        scrollMarks svga st' (st.info.height / 16) [.character st.cursorColumn st.cursorRow]) =
          some (marks, st') ∧
      Good st marks st' := by
  obtain ⟨u, heq, hu⟩ := G.putCharacter hsvga b
  have hmarks : ∀ mark ∈ [Mark.character st.cursorColumn st.cursorRow],
      mark.Fine st.info.width st.info.height := by
    intro mark hmark
    rw [List.mem_singleton.mp hmark]
    exact G.cell_fits
  rw [heq, Option.bind_some]
  rcases hu with ⟨hwrap, hu⟩ | hu
  · have hgrid : OnGrid u := by
      rw [hu]
      have hsame : SameFrame st { st with memory := u.memory } := rfl
      exact (G.congr hsame).moveCursor hwrap G.row_lt
    have hstay : ¬u.cursorRow ≥ st.info.height / 16 := by
      rw [hu]
      exact Nat.not_le_of_lt G.row_lt
    have hinfo : u.info = st.info := by rw [hu]
    unfold scrollMarks
    rw [if_neg hstay]
    refine ⟨_, u, rfl, hgrid, hinfo, fun mark hmark => ?_⟩
    rcases List.mem_append.mp hmark with hmark | hmark
    · exact hmarks mark hmark
    · rw [List.mem_singleton.mp hmark, ← hinfo]
      exact ⟨hgrid.column_lt, hgrid.row_lt⟩
  · exact G.scroll hsvga hu hmarks

theorem OnGrid.byte (G : OnGrid st) (hsvga : SoftwareAlike svga) (b : UInt8) :
    ∃ marks st', byteMarks svga st (st.info.width / 8) (st.info.height / 16) b = some (marks, st') ∧
      Good st marks st' := by
  have hcolumns := G.columns_ge
  have hrow := G.row_lt
  by_cases hback : b = 8
  · rw [hback]
    exact G.erase hsvga
  unfold byteMarks
  rw [if_neg hback]
  by_cases hreturn : b = 13
  · rw [if_pos hreturn]
    refine ⟨_, _, rfl, G.moveCursor (Nat.zero_lt_of_lt hcolumns) hrow, rfl, fun mark hmark => ?_⟩
    rw [List.mem_singleton.mp hmark]
    exact ⟨Nat.zero_lt_of_lt hcolumns, hrow⟩
  rw [if_neg hreturn]
  by_cases hline : b = 10
  · rw [if_pos hline]
    refine G.scroll hsvga ?_ fun mark hmark => absurd hmark List.not_mem_nil
    unfold nextLine
    rw [G.add64_row]
  · rw [if_neg hline]
    exact G.character hsvga b

theorem OnGrid.text (G : OnGrid st) (hsvga : SoftwareAlike svga) (text : List UInt8) :
    ∃ marks st', textMarks svga (st.info.width / 8) (st.info.height / 16) st text =
        some (marks, st') ∧ Good st marks st' := by
  induction text generalizing st with
  | nil => exact ⟨[], st, rfl, G, rfl, fun mark hmark => absurd hmark List.not_mem_nil⟩
  | cons b text ih =>
    obtain ⟨marks, u, heq, hgrid, hinfo, hmarks⟩ := G.byte hsvga b
    obtain ⟨marks', st', heq', hgrid', hinfo', hmarks'⟩ := ih hgrid
    rw [hinfo] at heq' hinfo' hmarks'
    refine ⟨marks ++ marks', st', ?_, hgrid', hinfo', fun mark hmark => ?_⟩
    · rw [textMarks, heq, Option.bind_some, heq']
      rfl
    · rcases List.mem_append.mp hmark with hmark | hmark
      · exact hmarks mark hmark
      · exact hmarks' mark hmark

end Bytes

section Runs

variable {svga : Svga} {st st' : FramebufferState}

/-- The cursor is set to a cell of the grid only. -/
def Legal (st : FramebufferState) : CursorCall → Prop
  | .setCursor column row => column < st.info.width / 8 ∧ row < st.info.height / 16
  | _ => True

theorem OnGrid.call (G : OnGrid st) (hsvga : SoftwareAlike svga) {c : CursorCall}
    (hlegal : Legal st c) : ∃ marks st', c.perform svga st = some (marks, st') ∧
      Good st marks st' := by
  cases c with
  | clear background =>
    have hinfo := consoleClear_info G.screen hsvga background
    have H := consoleClear_shows G.screen hsvga (by have := G.columns_ge; omega)
      (by have := G.rows_ge; omega) background
    -- the cursor comes to the second column of the second row
    exact ⟨[], _, rfl, G.of_info H.screen hinfo G.columns_ge G.rows_ge, hinfo,
      fun mark hmark => absurd hmark List.not_mem_nil⟩
  | setColors foreground background =>
    exact ⟨[], _, rfl, G.of_info (G.screen.of_eq rfl rfl rfl) rfl G.column_lt G.row_lt, rfl,
      fun mark hmark => absurd hmark List.not_mem_nil⟩
  | setCursor column row =>
    exact ⟨[], _, rfl, G.moveCursor hlegal.1 hlegal.2, rfl,
      fun mark hmark => absurd hmark List.not_mem_nil⟩
  | write text =>
    have hready : ¬(!st.initialized) = true := by simp [G.screen.initialized]
    unfold CursorCall.perform
    dsimp only
    rw [if_neg hready]
    exact G.text hsvga text

/-- `framebuffer_init` puts the cursor on the grid. -/
theorem onGrid_of_init {framebuffer : LimineFramebuffer}
    (hinit : (framebufferInit st (some framebuffer)).1 = true)
    (hwidth : framebuffer.width < 2 ^ 62)
    (hfits : framebuffer.address + framebuffer.height * framebuffer.pitch < 2 ^ 64)
    (hcolumns : 2 ≤ framebuffer.width / 8) (hrows : 2 ≤ framebuffer.height / 16) :
    OnGrid (framebufferInit st (some framebuffer)).2 ∧
      (framebufferInit st (some framebuffer)).2.info.width = framebuffer.width ∧
      (framebufferInit st (some framebuffer)).2.info.height = framebuffer.height := by
  have S := screen_of_init hinit hwidth hfits
  unfold framebufferInit at hinit S ⊢
  dsimp only at hinit S ⊢
  split_ifs at hinit S ⊢ with hbad
  exact ⟨⟨S, hcolumns, hrows, hcolumns, hrows⟩, rfl, rfl⟩

/-- Every run of calls from `framebuffer_init` on keeps the cursor on the grid, with fine marks, and
no further call is without a result. -/
theorem run_onGrid {framebuffer : LimineFramebuffer} (hsvga : SoftwareAlike svga)
    (hinit : (framebufferInit st (some framebuffer)).1 = true)
    (hwidth : framebuffer.width < 2 ^ 62)
    (hfits : framebuffer.address + framebuffer.height * framebuffer.pitch < 2 ^ 64)
    (hcolumns : 2 ≤ framebuffer.width / 8) (hrows : 2 ≤ framebuffer.height / 16)
    {events : List (CursorCall × List Mark)}
    (hrun : Run (CallStep Legal fun st c => c.perform svga st)
      (framebufferInit st (some framebuffer)).2 events st') :
    (st'.cursorColumn < framebuffer.width / 8 ∧ st'.cursorRow < framebuffer.height / 16) ∧
      (∀ event ∈ events, ∀ mark ∈ event.2, mark.Fine framebuffer.width framebuffer.height) ∧
      ∀ c, Legal st' c → ∃ marks st'', c.perform svga st' = some (marks, st'') := by
  obtain ⟨G, hinfo⟩ := onGrid_of_init hinit hwidth hfits hcolumns hrows
  have hrun' := hrun.invariant_labels
    (fun u => OnGrid u ∧ u.info.width = framebuffer.width ∧ u.info.height = framebuffer.height)
    (fun event => ∀ mark ∈ event.2, mark.Fine framebuffer.width framebuffer.height) ?_ ⟨G, hinfo⟩
  · obtain ⟨⟨G', hw, hh⟩, hmarks⟩ := hrun'
    refine ⟨⟨hw ▸ G'.column_lt, hh ▸ G'.row_lt⟩, hmarks, fun c hc => ?_⟩
    obtain ⟨marks, st'', heq, -⟩ := G'.call hsvga hc
    exact ⟨marks, st'', heq⟩
  · rintro u ⟨c, marks⟩ u' ⟨H, hw, hh⟩ ⟨hlegal, hperform⟩
    obtain ⟨marks', v, heq, H', hinfo', hmarks⟩ := H.call hsvga hlegal
    obtain ⟨rfl, rfl⟩ := Prod.mk.inj (Option.some.inj (heq.symm.trans hperform))
    rw [hinfo', hw, hh]
    rw [hw, hh] at hmarks
    exact ⟨⟨H', rfl, rfl⟩, hmarks⟩

/-- Two columns and two rows of text, with a strip of eight pixel rows below. -/
def smallFramebuffer : LimineFramebuffer := ⟨4096, 17, 40, 68, 32, 1, 8, 16, 8, 8, 8, 0⟩

/-- A newline from the last cell scrolls, and two backspaces cross the start of a row. -/
theorem run_onGrid_smallFramebuffer : ∃ st' events,
    Run (CallStep Legal fun st c => c.perform Svga.absent st)
      (framebufferInit (twoRows 40) (some smallFramebuffer)).2 events st' ∧
    events.map Prod.snd = [[.scroll 2 1, .cursor 0 1, .erase 1 0, .cursor 1 0, .erase 0 0,
      .cursor 0 0]] ∧
    (st'.cursorColumn < smallFramebuffer.width / 8 ∧
      st'.cursorRow < smallFramebuffer.height / 16) ∧
      (∀ event ∈ events, ∀ mark ∈ event.2,
        mark.Fine smallFramebuffer.width smallFramebuffer.height) ∧
      ∀ c, Legal st' c → ∃ marks st'', c.perform Svga.absent st' = some (marks, st'') := by
  have hperform : (((CursorCall.write [10, 8, 8]).perform Svga.absent
      (framebufferInit (twoRows 40) (some smallFramebuffer)).2).map Prod.fst) =
      some [.scroll 2 1, .cursor 0 1, .erase 1 0, .cursor 1 0, .erase 0 0, .cursor 0 0] := by
    decide +kernel
  obtain ⟨⟨marks, st'⟩, heq, rfl⟩ := Option.map_eq_some_iff.mp hperform
  have hrun : Run (CallStep Legal fun st c => c.perform Svga.absent st)
      (framebufferInit (twoRows 40) (some smallFramebuffer)).2
      [(.write [10, 8, 8], [.scroll 2 1, .cursor 0 1, .erase 1 0, .cursor 1 0, .erase 0 0,
        .cursor 0 0])] st' := .cons ⟨trivial, heq⟩ (.nil st')
  exact ⟨st', _, hrun, rfl, run_onGrid softwareAlike_absent (by decide) (by decide) (by decide)
    (by decide) (by decide) hrun⟩

end Runs

end JsOs.ConsoleCursor

import JsOs.ConsoleModel
import JsOs.FramebufferPainting
import JsOs.TextGrid
import JsOs.TransitionRuns

/-!
# The console shows a text grid

Each cell of the grid is eight by sixteen pixels. A scroll moves whole pixel rows up by sixteen
and fills the last sixteen of the framebuffer, so where the height is no multiple of sixteen the
rows below the text come into the last text row with the colour they had.
-/

namespace JsOs.ConsoleRefinement

open CountedLoops ByteMemory MachineWords FramebufferModel FramebufferPainting ConsoleFont
open ConsoleModel TextGrid TransitionRuns

/-- The driver, where it does anything, does what the software loops do. -/
structure SoftwareAlike (svga : Svga) : Prop where
  fills : FillsAlike svga
  copies : ∀ st st', svga.rectCopy st 0 16 0 0 st.info.width (st.info.height - 16) = some st' →
    st' = copyRowsUp st 16

theorem softwareAlike_absent : SoftwareAlike Svga.absent :=
  ⟨fillsAlike_absent, fun _ _ h => by cases h⟩

/-- The pixels of a cell. -/
def render (c : Cell) (x y : ℕ) : UInt32 :=
  match c with
  | .blank background => background
  | .glyph character foreground background =>
    if (glyphRow (shownCharacter character) (y / 2)).testBit x then foreground else background

section Cells

variable {svga : Svga} {st : FramebufferState} {column row : ℕ} {color : UInt32}

/-- The pixels of the cell at `column` and `row`. -/
def InCell (column row px py : ℕ) : Prop := px / 8 = column ∧ py / 16 = row

theorem cell_coordinates (S : Screen st) (hc : column < st.info.width / 8)
    (hr : row < st.info.height / 16) :
    toInt64 (mul64 column consoleCellWidth) = 8 * column ∧
      toInt64 (mul64 row consoleCellHeight) = 16 * row := by
  have hW := S.width_lt
  have hH := S.height_lt
  rw [consoleCellWidth_eq, consoleCellHeight_eq, mul64_eq (by omega), mul64_eq (by omega),
    toInt64_eq (by omega), toInt64_eq (by omega)]
  omega

theorem fillCell_paints (S : Screen st) (hsvga : SoftwareAlike svga)
    (hc : column < st.info.width / 8) (hr : row < st.info.height / 16) (color : UInt32) :
    ∃ st', fillCell svga st column row color = some st' ∧
      Paints (InCell column row) color st st' := by
  obtain ⟨hx, hy⟩ := cell_coordinates S hc hr
  obtain ⟨st', heq, P⟩ := S.fillRect_paints hsvga.fills (8 * column) (16 * row) 8 16 color
    (Or.inr (by omega)) (Or.inr (by omega))
  refine ⟨st', ?_, P.congr fun px py _ _ => ?_⟩
  · unfold fillCell
    rw [hx, hy]
    exact heq
  · unfold InCell InRect
    omega

theorem fillGlyphPixel_paints (S : Screen st) (hsvga : SoftwareAlike svga)
    (hc : column < st.info.width / 8) (hr : row < st.info.height / 16) (character : UInt8)
    {glyphY glyphX : ℕ} (hy : glyphY < 8) (hx : glyphX < 8) :
    ∃ st', fillGlyphPixel svga st (8 * column) (16 * row) character glyphY glyphX = some st' ∧
      Paints (fun px py => InCell column row px py ∧ py % 16 / 2 = glyphY ∧ px % 8 = glyphX ∧
        (glyphRow character glyphY).testBit glyphX = true) st.foreground st st' := by
  have hW := S.width_lt
  have hH := S.height_lt
  unfold fillGlyphPixel
  by_cases hbit : (glyphRow character glyphY).testBit glyphX = true
  · rw [if_pos hbit, checkInt64_eq (by omega) (by unfold int64Max; omega), Option.bind_some,
      checkInt64_eq (by omega) (by unfold int64Max; omega), Option.bind_some]
    obtain ⟨st', heq, P⟩ := S.fillRect_paints hsvga.fills (8 * column + glyphX)
      (16 * row + glyphY * 2) 1 2 st.foreground (Or.inr (by omega)) (Or.inr (by omega))
    refine ⟨st', heq, P.congr fun px py _ _ => ?_⟩
    unfold InCell InRect
    simp only [hbit, and_true]
    omega
  · rw [if_neg hbit]
    exact ⟨st, rfl, (Paints.none st _).congr fun px py _ _ =>
      ⟨fun h => hbit h.2.2.2, fun h => h.elim⟩⟩

theorem glyphRow_paints (S : Screen st) (hsvga : SoftwareAlike svga)
    (hc : column < st.info.width / 8) (hr : row < st.info.height / 16) (character : UInt8)
    {glyphY : ℕ} (hy : glyphY < 8) :
    ∃ st', forRangeM 0 8 (fun glyphX st => fillGlyphPixel svga st (8 * column) (16 * row) character
        glyphY glyphX) st = some st' ∧
      Paints (fun px py => InCell column row px py ∧ py % 16 / 2 = glyphY ∧
        (glyphRow character (py % 16 / 2)).testBit (px % 8) = true) st.foreground st st' := by
  obtain ⟨st', heq, P⟩ := forRangeM_invariant (fun glyphX t =>
      Paints (fun px py => InCell column row px py ∧ py % 16 / 2 = glyphY ∧ px % 8 < glyphX ∧
        (glyphRow character (py % 16 / 2)).testBit (px % 8) = true) st.foreground st t)
    (Nat.zero_le 8)
    ((Paints.none st _).congr fun px py _ _ => ⟨fun h => by omega, fun h => h.elim⟩)
    (fun glyphX t _ hx P => by
      have hinfo := P.frame.info_eq
      have hfore : t.foreground = st.foreground := by rw [P.frame]
      obtain ⟨u, hu, P'⟩ := fillGlyphPixel_paints (S.congr P.frame) hsvga
        (show column < t.info.width / 8 by rw [hinfo]; exact hc)
        (show row < t.info.height / 16 by rw [hinfo]; exact hr) character hy hx
      rw [hfore] at P'
      refine ⟨u, hu, (P.union P').congr fun px py _ _ => ?_⟩
      by_cases hat : py % 16 / 2 = glyphY ∧ px % 8 = glyphX
      · rw [hat.1, hat.2]
        simp
      · constructor
        · rintro ⟨hcell, hrow, hlt, hbit⟩
          exact Or.inl ⟨hcell, hrow, by omega, hbit⟩
        · rintro (⟨hcell, hrow, hlt, hbit⟩ | ⟨-, hrow, hcol, -⟩)
          · exact ⟨hcell, hrow, by omega, hbit⟩
          · exact absurd ⟨hrow, hcol⟩ hat)
  refine ⟨st', heq, P.congr fun px py _ _ => ?_⟩
  have hlt := Nat.mod_lt px (show 0 < 8 by decide)
  simp [hlt]

/-- All rows of the glyph. -/
theorem glyph_paints (S : Screen st) (hsvga : SoftwareAlike svga)
    (hc : column < st.info.width / 8) (hr : row < st.info.height / 16) (character : UInt8) :
    ∃ st', forRangeM 0 8 (fun glyphY => forRangeM 0 8 fun glyphX st =>
        fillGlyphPixel svga st (8 * column) (16 * row) character glyphY glyphX) st = some st' ∧
      Paints (fun px py => InCell column row px py ∧ py % 16 / 2 < 8 ∧
        (glyphRow character (py % 16 / 2)).testBit (px % 8) = true) st.foreground st st' := by
  refine forRangeM_invariant (fun glyphY t => Paints (fun px py => InCell column row px py ∧
    py % 16 / 2 < glyphY ∧ (glyphRow character (py % 16 / 2)).testBit (px % 8) = true)
    st.foreground st t) (Nat.zero_le 8) ?_ ?_
  · exact (Paints.none st _).congr fun px py _ _ => ⟨fun h => by omega, fun h => h.elim⟩
  · intro glyphY t _ hgy P
    have hinfo := P.frame.info_eq
    have hfore : t.foreground = st.foreground := by rw [P.frame]
    obtain ⟨u, hu, P'⟩ := glyphRow_paints (S.congr P.frame) hsvga
      (show column < t.info.width / 8 by rw [hinfo]; exact hc)
      (show row < t.info.height / 16 by rw [hinfo]; exact hr) character hgy
    rw [hfore] at P'
    refine ⟨u, hu, (P.union P').congr fun px py _ _ => ?_⟩
    constructor
    · rintro ⟨hcell, hlt, hbit⟩
      by_cases hat : py % 16 / 2 = glyphY
      · exact Or.inr ⟨hcell, hat, hbit⟩
      · exact Or.inl ⟨hcell, by omega, hbit⟩
    · rintro (⟨hcell, hlt, hbit⟩ | ⟨hcell, hat, hbit⟩)
      · exact ⟨hcell, by omega, hbit⟩
      · exact ⟨hcell, by omega, hbit⟩

/-- `console_character` writes one cell. -/
theorem consoleCharacter_spec (S : Screen st) (hsvga : SoftwareAlike svga)
    (hc : column < st.info.width / 8) (hr : row < st.info.height / 16) (character : UInt8) :
    ∃ st', consoleCharacter svga st column row character = some st' ∧ SameFrame st st' ∧
      ∀ px py, px < st.info.width → py < st.info.height →
        (InCell column row px py → pixel st' px py =
          render (.glyph character st.foreground st.background) (px % 8) (py % 16)) ∧
        (¬InCell column row px py → pixel st' px py = pixel st px py) := by
  obtain ⟨hx, hy⟩ := cell_coordinates S hc hr
  obtain ⟨st₁, heq₁, P₁⟩ := fillCell_paints S hsvga hc hr st.background
  have hinfo₁ := P₁.frame.info_eq
  have hfore₁ : st₁.foreground = st.foreground := by rw [P₁.frame]
  obtain ⟨st', heq, P⟩ := glyph_paints (S.congr P₁.frame) hsvga
    (show column < st₁.info.width / 8 by rw [hinfo₁]; exact hc)
    (show row < st₁.info.height / 16 by rw [hinfo₁]; exact hr) (shownCharacter character)
  refine ⟨st', ?_, P₁.frame.trans P.frame, fun px py hpx hpy => ⟨fun hcell => ?_, fun hcell => ?_⟩⟩
  · unfold consoleCharacter
    rw [hx, hy, heq₁, Option.bind_some]
    exact heq
  · have hrow := Nat.mod_lt py (show 0 < 16 by decide)
    unfold render
    dsimp only
    split_ifs with hbit
    · rw [← hfore₁]
      exact P.inside px py (hinfo₁ ▸ hpx) (hinfo₁ ▸ hpy) ⟨hcell, by omega, hbit⟩
    · rw [P.outside px py (hinfo₁ ▸ hpx) (hinfo₁ ▸ hpy) fun h => hbit h.2.2]
      exact P₁.inside px py hpx hpy hcell
  · rw [P.outside px py (hinfo₁ ▸ hpx) (hinfo₁ ▸ hpy) fun h => hcell h.1]
    exact P₁.outside px py hpx hpy hcell

end Cells

section Scroll

variable {svga : Svga} {st : FramebufferState}

/-- One round of the copy: pixel row `y` becomes the row sixteen further down. -/
theorem copyRow_spec (S : Screen st) {y : ℕ} (hy : y + 16 < st.info.height) :
    let t := forRange 0 st.info.width (fun x t => storePixel t x y (pixel t x (add64 y 16))) st
    SameFrame st t ∧ ∀ px py, px < st.info.width → py < st.info.height →
      pixel t px py = if py = y then pixel st px (y + 16) else pixel st px py := by
  have hH := S.height_lt
  have hsum : add64 y 16 = y + 16 := add64_eq (by omega)
  intro t
  have hloop : SameFrame st t ∧ ∀ px py, px < st.info.width → py < st.info.height →
      pixel t px py =
        if py = y ∧ px < st.info.width then pixel st px (y + 16) else pixel st px py := by
    refine forRange_invariant (fun x u => SameFrame st u ∧
      ∀ px py, px < st.info.width → py < st.info.height → pixel u px py =
        if py = y ∧ px < x then pixel st px (y + 16) else pixel st px py) (Nat.zero_le _)
      ⟨.refl st, fun px py _ _ => by rw [if_neg (by omega)]⟩ ?_
    rintro x u - hx ⟨hframe, hu⟩
    have hinfo := hframe.info_eq
    -- the row that is read lies below the one that is written
    have hread : pixel u x (add64 y 16) = pixel st x (y + 16) := by
      rw [hsum, hu x (y + 16) hx (by omega), if_neg (by omega)]
    rw [hread]
    refine ⟨hframe.trans rfl, fun px py hpx hpy => ?_⟩
    by_cases hat : px = x ∧ py = y
    · obtain ⟨rfl, rfl⟩ := hat
      rw [pixel_storePixel_same, if_pos (by omega)]
    · rw [(S.congr hframe).pixel_storePixel_of_ne (by rw [hinfo]; exact hx)
        (by rw [hinfo]; omega) (by rw [hinfo]; exact hpx) (by rw [hinfo]; exact hpy) hat,
        hu px py hpx hpy]
      by_cases hin : py = y ∧ px < x
      · rw [if_pos hin, if_pos (by omega)]
      · rw [if_neg hin, if_neg (by omega)]
  refine ⟨hloop.1, fun px py hpx hpy => ?_⟩
  rw [hloop.2 px py hpx hpy]
  simp only [hpx, and_true]

theorem copyRowsUp_spec (S : Screen st) (hh : 16 ≤ st.info.height) :
    SameFrame st (copyRowsUp st 16) ∧ ∀ px py, px < st.info.width → py < st.info.height →
      pixel (copyRowsUp st 16) px py =
        if py + 16 < st.info.height then pixel st px (py + 16) else pixel st px py := by
  have hH := S.height_lt
  have hrows : sub64 st.info.height 16 = st.info.height - 16 := sub64_eq hh (by omega)
  have hloop : SameFrame st (copyRowsUp st 16) ∧
      ∀ px py, px < st.info.width → py < st.info.height → pixel (copyRowsUp st 16) px py =
        if py < st.info.height - 16 then pixel st px (py + 16) else pixel st px py := by
    unfold copyRowsUp
    rw [hrows]
    refine forRange_invariant (fun y t => SameFrame st t ∧
      ∀ px py, px < st.info.width → py < st.info.height →
        pixel t px py = if py < y then pixel st px (py + 16) else pixel st px py) (Nat.zero_le _)
      ⟨.refl st, fun px py _ _ => by rw [if_neg (Nat.not_lt_zero _)]⟩ ?_
    rintro y t - hy ⟨hframe, ht⟩
    have hinfo := hframe.info_eq
    obtain ⟨hframe', hrow⟩ := copyRow_spec (S.congr hframe)
      (show y + 16 < t.info.height by rw [hinfo]; omega)
    refine ⟨hframe.trans hframe', fun px py hpx hpy => ?_⟩
    rw [hrow px py (hinfo ▸ hpx) (hinfo ▸ hpy)]
    by_cases hat : py = y
    · rw [if_pos hat, if_pos (by omega), ht px (y + 16) hpx (by omega), if_neg (by omega), hat]
    · rw [if_neg hat, ht px py hpx hpy]
      by_cases hlt : py < y
      · rw [if_pos hlt, if_pos (by omega)]
      · rw [if_neg hlt, if_neg (by omega)]
  refine ⟨hloop.1, fun px py hpx hpy => ?_⟩
  rw [hloop.2 px py hpx hpy]
  by_cases hlt : py + 16 < st.info.height
  · rw [if_pos hlt, if_pos (by omega)]
  · rw [if_neg hlt, if_neg (by omega)]

/-- A scroll: every pixel row comes from sixteen rows further down, the last sixteen are filled,
and the cursor moves up with the text. -/
theorem consoleScroll_spec (S : Screen st) (hsvga : SoftwareAlike svga)
    (hh : 16 < st.info.height) (hrow : 0 < st.cursorRow) :
    ∃ st', consoleScroll svga st = some st' ∧
      st' = { st with memory := st'.memory, cursorRow := st.cursorRow - 1 } ∧
      ∀ px py, px < st.info.width → py < st.info.height → pixel st' px py =
        if py + 16 < st.info.height then pixel st px (py + 16) else st.background := by
  have hW := S.width_lt
  have hH := S.height_lt
  obtain ⟨hframe, hcopy⟩ := copyRowsUp_spec S (le_of_lt hh)
  have hcopied : (framebufferCopyRect svga st 0 16 0 0 (st.info.width % 2 ^ 32)
      ((st.info.height - 16) % 2 ^ 32)).getD (copyRowsUp st 16) = copyRowsUp st 16 := by
    cases hres : framebufferCopyRect svga st 0 16 0 0 (st.info.width % 2 ^ 32)
        ((st.info.height - 16) % 2 ^ 32) with
    | none => exact Option.getD_none
    | some st' =>
      unfold framebufferCopyRect at hres
      split_ifs at hres with hguard
      have hacc : framebufferAccelerated svga st = true := by
        by_contra hnot
        exact hguard (by simp [hnot])
      obtain ⟨hwidth, hheight⟩ := hsvga.fills.sides_lt hacc
      rw [Nat.mod_eq_of_lt hwidth, Nat.mod_eq_of_lt (show st.info.height - 16 < _ by omega)] at hres
      rw [Option.getD_some]
      exact hsvga.copies st st' hres
  obtain ⟨u, hu, P⟩ := (S.congr hframe).fillRect_paints hsvga.fills 0
    ((st.info.height - 16 : ℕ) : ℤ) st.info.width 16 st.background (Or.inr (le_refl _))
    (Or.inr (by omega))
  have hinfo := hframe.info_eq
  have hback : (copyRowsUp st 16).background = st.background := by rw [hframe]
  have huframe := hframe.trans P.frame
  have hucursor : u.cursorRow = st.cursorRow := by rw [huframe]
  refine ⟨{ u with cursorRow := u.cursorRow - 1 }, ?_, ?_, fun px py hpx hpy => ?_⟩
  · unfold consoleScroll
    rw [if_neg (by simp [S.initialized, hh])]
    simp only [consoleCellHeight_eq, sub64_eq (le_of_lt hh) (show st.info.height < 2 ^ 64 by omega),
      Nat.cast_ofNat, hcopied, hback, hinfo]
    rw [toInt64_eq (by omega), toInt64_eq (by omega), hu]
    simp [hucursor, hrow]
  · rw [hucursor, huframe]
  · change pixel u px py = _
    by_cases hlt : py + 16 < st.info.height
    · rw [if_pos hlt, P.outside px py (by rw [hinfo]; exact hpx) (by rw [hinfo]; exact hpy)
        (by unfold InRect; omega),
        hcopy px py hpx hpy, if_pos hlt]
    · rw [if_neg hlt]
      exact P.inside px py (by rw [hinfo]; exact hpx) (by rw [hinfo]; exact hpy)
        (by unfold InRect; omega)

/-- The screen after a scroll: everything has moved up by a row of text, and the cursor with it. -/
structure Scrolled (st st' : FramebufferState) : Prop where
  screen : Screen st'
  info_eq : st'.info = st.info
  column_eq : st'.cursorColumn = st.cursorColumn
  row_eq : st'.cursorRow = st.cursorRow - 1
  foreground_eq : st'.foreground = st.foreground
  background_eq : st'.background = st.background
  pixels : ∀ px py, px < st.info.width → py < st.info.height → pixel st' px py =
    if py + 16 < st.info.height then pixel st px (py + 16) else st.background

theorem consoleScroll_scrolled (S : Screen st) (hsvga : SoftwareAlike svga)
    (hh : 16 < st.info.height) (hrow : 0 < st.cursorRow) :
    ∃ st', consoleScroll svga st = some st' ∧ Scrolled st st' := by
  obtain ⟨st', heq, hst', hpixels⟩ := consoleScroll_spec S hsvga hh hrow
  refine ⟨st', heq, ?_, ?_, ?_, ?_, ?_, ?_, hpixels⟩
  · rw [hst']
    exact S.of_eq rfl rfl rfl
  all_goals rw [hst']

end Scroll

/-- The framebuffer shows the grid, cell by cell, and the console agrees with it on the cursor
and the colours. -/
structure Shows {columns rows : ℕ} (st : FramebufferState) (g : Grid columns rows) : Prop where
  screen : Screen st
  columns_eq : st.info.width / 8 = columns
  rows_eq : st.info.height / 16 = rows
  column_eq : st.cursorColumn = g.column
  row_eq : st.cursorRow = g.row
  foreground_eq : st.foreground = g.foreground
  background_eq : st.background = g.background
  pixels : ∀ px py, px / 8 < columns → py / 16 < rows →
    pixel st px py = render (g.cell (px / 8) (py / 16)) (px % 8) (py % 16)

/-- The pixels below the last text row have the current background already. -/
def StripCurrent (st : FramebufferState) : Prop :=
  ∀ px py, px / 8 < st.info.width / 8 → st.info.height / 16 ≤ py / 16 → py < st.info.height →
    pixel st px py = st.background

/-- The byte moves the cursor below the last row. -/
def Scrolls (st : FramebufferState) (b : UInt8) : Prop :=
  st.cursorRow + 1 = st.info.height / 16 ∧
    (b = 10 ∨ b ≠ 8 ∧ b ≠ 13 ∧ st.cursorColumn + 1 = st.info.width / 8)

section Bytes

variable {svga : Svga} {st st' : FramebufferState} {columns rows : ℕ} {g g' : Grid columns rows}

/-- Where only the cursor moves, and to where the grid has it. -/
theorem Shows.moveCursor (H : Shows st g) (hcell : g'.cell = g.cell)
    (hfore : g'.foreground = g.foreground) (hback : g'.background = g.background)
    (hst : st' = { st with cursorColumn := g'.column, cursorRow := g'.row }) : Shows st' g' := by
  subst hst
  exact ⟨H.screen.of_eq rfl rfl rfl, H.columns_eq, H.rows_eq, rfl, rfl,
    H.foreground_eq.trans hfore.symm, H.background_eq.trans hback.symm, by rw [hcell]; exact H.pixels⟩

/-- Only the cell at the cursor changes, and it becomes `c`. -/
structure WritesCell (g : Grid columns rows) (c : Cell) (st st' : FramebufferState) : Prop where
  frame : SameFrame st st'
  inside : ∀ px py, px < st.info.width → py < st.info.height → InCell g.column g.row px py →
    pixel st' px py = render c (px % 8) (py % 16)
  outside : ∀ px py, px < st.info.width → py < st.info.height → ¬InCell g.column g.row px py →
    pixel st' px py = pixel st px py

theorem Shows.put {c : Cell} (H : Shows st g) (W : WritesCell g c st st') :
    Shows st' (g.put c) := by
  have hinfo := W.frame.info_eq
  have hcolumns := H.columns_eq
  have hrows := H.rows_eq
  refine ⟨H.screen.congr W.frame, by rw [hinfo]; exact hcolumns, by rw [hinfo]; exact hrows,
    by rw [W.frame]; exact H.column_eq, by rw [W.frame]; exact H.row_eq,
    by rw [W.frame]; exact H.foreground_eq, by rw [W.frame]; exact H.background_eq,
    fun px py hpx hpy => ?_⟩
  unfold Grid.put
  by_cases hin : px / 8 = g.column ∧ py / 16 = g.row
  · rw [W.inside px py (by omega) (by omega) hin]
    simp only [if_pos hin]
  · rw [W.outside px py (by omega) (by omega) hin, H.pixels px py hpx hpy]
    simp only [if_neg hin]

/-- The strip below the text belongs to no cell. -/
theorem WritesCell.strip {c : Cell} (H : Shows st g) (W : WritesCell g c st st') :
    StripCurrent st' ↔ StripCurrent st := by
  have hrow := g.row_lt
  have hrows := H.rows_eq
  have hback : st'.background = st.background := by rw [W.frame]
  unfold StripCurrent
  rw [W.frame.info_eq, hback]
  refine forall₅_congr fun px py hpx hpy hlt => ?_
  rw [W.outside px py (by omega) hlt (by unfold InCell; omega)]

theorem Shows.consoleCharacter (H : Shows st g) (hsvga : SoftwareAlike svga) (character : UInt8) :
    ∃ st', consoleCharacter svga st st.cursorColumn st.cursorRow character = some st' ∧
      WritesCell g (.glyph character g.foreground g.background) st st' := by
  obtain ⟨st', heq, hframe, hpix⟩ := consoleCharacter_spec H.screen hsvga
    (show st.cursorColumn < st.info.width / 8 by rw [H.column_eq, H.columns_eq]; exact g.column_lt)
    (show st.cursorRow < st.info.height / 16 by rw [H.row_eq, H.rows_eq]; exact g.row_lt) character
  rw [H.foreground_eq, H.background_eq, H.column_eq, H.row_eq] at hpix
  exact ⟨st', heq, hframe, fun px py hpx hpy => (hpix px py hpx hpy).1,
    fun px py hpx hpy => (hpix px py hpx hpy).2⟩

theorem Shows.fillCell (H : Shows st g) (hsvga : SoftwareAlike svga) :
    ∃ st', fillCell svga st st.cursorColumn st.cursorRow st.background = some st' ∧
      WritesCell g (.blank g.background) st st' := by
  obtain ⟨st', heq, P⟩ := fillCell_paints H.screen hsvga
    (show st.cursorColumn < st.info.width / 8 by rw [H.column_eq, H.columns_eq]; exact g.column_lt)
    (show st.cursorRow < st.info.height / 16 by rw [H.row_eq, H.rows_eq]; exact g.row_lt)
    st.background
  rw [H.column_eq, H.row_eq] at P
  exact ⟨st', heq, P.frame, fun px py hpx hpy h => (P.inside px py hpx hpy h).trans H.background_eq,
    P.outside⟩

theorem Shows.stepBack (H : Shows st g) : Shows (stepBack st columns) g.back := by
  have hcolumn := H.column_eq
  have hrow := H.row_eq
  have hpos := Nat.zero_lt_of_lt g.column_lt
  refine H.moveCursor g.back_cell g.back_foreground g.back_background ?_
  unfold ConsoleModel.stepBack Grid.back
  by_cases hleft : 0 < g.column
  · simp [hleft, hcolumn, hrow]
  · by_cases htop : 0 < g.row
    · simp [hleft, hcolumn, hrow, htop, hpos]
    · have hstay : st = { st with cursorColumn := g.column, cursorRow := g.row } := by
        rw [← hcolumn, ← hrow]
      simpa [hleft, htop, hcolumn, hrow] using hstay

theorem Shows.add64_row (H : Shows st g) : add64 st.cursorRow 1 = g.row + 1 := by
  have hrow := g.row_lt
  have hrows := H.rows_eq
  have hH := H.screen.height_lt
  rw [H.row_eq, add64_eq (by omega)]

/-- The end of a line. On the last row the text moves up, and the strip below it moves in. -/
theorem Shows.newline_iff (H : Shows st g) (hsvga : SoftwareAlike svga) (hrows : 2 ≤ rows) :
    ∃ st', (if (nextLine st).cursorRow ≥ rows then consoleScroll svga (nextLine st)
        else some (nextLine st)) = some st' ∧
      (Shows st' g.newline ↔ (g.row + 1 = rows → StripCurrent st)) := by
  have hlt := g.row_lt
  have hwidth := H.columns_eq
  have hheight := H.rows_eq
  have hcursor : (nextLine st).cursorRow = g.row + 1 := H.add64_row
  rw [hcursor]
  by_cases hlast : g.row + 1 < rows
  · refine ⟨nextLine st, if_neg (by omega), iff_of_true ?_ fun h => by omega⟩
    rw [g.newline_of_lt hlast]
    exact H.moveCursor rfl rfl rfl (by unfold nextLine; rw [H.add64_row]; rfl)
  · have hscreen : Screen (nextLine st) := H.screen.of_eq rfl rfl rfl
    obtain ⟨st', heq, M⟩ := consoleScroll_scrolled hscreen hsvga
      (show 16 < st.info.height by omega) (by rw [hcursor]; exact Nat.succ_pos _)
    have hpix : ∀ px py, px < st.info.width → py < st.info.height → pixel st' px py =
        if py + 16 < st.info.height then pixel st px (py + 16) else st.background := M.pixels
    have hinfo : st'.info = st.info := M.info_eq
    refine ⟨st', by rw [if_pos (by omega)]; exact heq, fun hshows _ px py hpx hpy hin => ?_,
      fun hstrip => ⟨M.screen, by rw [hinfo]; exact hwidth, by rw [hinfo]; exact hheight, ?_, ?_,
        ?_, ?_, fun px py hpx hpy => ?_⟩⟩
    · -- the last row shows now what the strip was
      have hshown := hshows.pixels px (py - 16) (by omega) (by omega)
      rw [g.newline_cell_of_last hlast, if_neg (by omega), hpix px (py - 16) (by omega) (by omega),
        if_pos (by omega), show py - 16 + 16 = py by omega] at hshown
      exact hshown.trans H.background_eq.symm
    · rw [M.column_eq, g.newline_column]
      rfl
    · rw [M.row_eq, g.newline_row_of_last hlast, hcursor]
      rfl
    · rw [M.foreground_eq, g.newline_foreground]
      exact H.foreground_eq
    · rw [M.background_eq, g.newline_background]
      exact H.background_eq
    · rw [g.newline_cell_of_last hlast, hpix px py (by omega) (by omega)]
      by_cases hrow : py / 16 + 1 < rows
      · rw [if_pos hrow, if_pos (by omega), H.pixels px (py + 16) hpx (by omega),
          show (py + 16) / 16 = py / 16 + 1 by omega, show (py + 16) % 16 = py % 16 by omega]
      · rw [if_neg hrow]
        by_cases hin : py + 16 < st.info.height
        · rw [if_pos hin, hstrip (by omega) px (py + 16) (by omega) (by omega) hin]
          exact H.background_eq
        · rw [if_neg hin]
          exact H.background_eq

theorem Shows.scrolls_iff (H : Shows st g) (b : UInt8) : Scrolls st b ↔
    g.row + 1 = rows ∧ (b = 10 ∨ b ≠ 8 ∧ b ≠ 13 ∧ g.column + 1 = columns) := by
  unfold Scrolls
  rw [H.column_eq, H.row_eq, H.columns_eq, H.rows_eq]

/-- A glyph and the step of the cursor behind it. -/
theorem Shows.glyph_iff (H : Shows st g) (hsvga : SoftwareAlike svga) (hrows : 2 ≤ rows) (b : UInt8) :
    ∃ st', ((putCharacter svga st columns b).bind fun t =>
        if t.cursorRow ≥ rows then consoleScroll svga t else some t) = some st' ∧
      (Shows st' (g.put (.glyph b g.foreground g.background)).forward ↔
        (g.row + 1 = rows ∧ g.column + 1 = columns → StripCurrent st)) := by
  obtain ⟨u, hu, W⟩ := H.consoleCharacter hsvga b
  have Hput := H.put W
  have hlt := g.column_lt
  have hrow := g.row_lt
  have hcolumns := H.columns_eq
  have hW := H.screen.width_lt
  have hcolumn : add64 u.cursorColumn 1 = g.column + 1 := by
    rw [Hput.column_eq]
    exact add64_eq (show g.column + 1 < 2 ^ 64 by omega)
  unfold putCharacter Grid.forward
  rw [hu, Option.map_some, Option.bind_some]
  dsimp only
  rw [hcolumn]
  by_cases hwrap : g.column + 1 < columns
  · have hstay : u.cursorRow = g.row := Hput.row_eq
    rw [if_neg (show ¬g.column + 1 ≥ columns by omega),
      dif_pos (show (g.put _).column + 1 < columns from hwrap),
      if_neg (show ¬u.cursorRow ≥ rows by omega)]
    refine ⟨_, rfl, iff_of_true (Hput.moveCursor rfl rfl rfl ?_) fun h => by omega⟩
    rw [hstay]
    rfl
  · obtain ⟨st', heq, hiff⟩ := Hput.newline_iff hsvga hrows
    rw [if_pos (show g.column + 1 ≥ columns by omega),
      dif_neg (show ¬(g.put _).column + 1 < columns from hwrap)]
    refine ⟨st', heq, hiff.trans ?_⟩
    rw [W.strip H]
    have hend : g.column + 1 = columns := by omega
    simp only [hend, and_true]
    exact Iff.rfl

/-- One byte of output does to the screen what it does to the grid, exactly when it moves no stale
pixels onto the last row. -/
theorem Shows.byte_iff (H : Shows st g) (hsvga : SoftwareAlike svga) (hrows : 2 ≤ rows) (b : UInt8) :
    ∃ st', consoleByte svga st columns rows b = some st' ∧
      (Shows st' (g.byte b) ↔ (Scrolls st b → StripCurrent st)) := by
  rw [H.scrolls_iff]
  unfold consoleByte Grid.byte
  by_cases hback : b = 8
  · obtain ⟨st', heq, W⟩ := H.stepBack.fillCell hsvga
    rw [if_pos hback, if_pos hback]
    refine ⟨st', heq, iff_of_true ?_ fun h => ?_⟩
    · rw [← g.back_background]
      exact H.stepBack.put W
    · simp [hback] at h
  by_cases hreturn : b = 13
  · have hcursor : ({ st with cursorColumn := 0 } : FramebufferState) =
        { st with cursorColumn := 0, cursorRow := g.row } := by rw [← H.row_eq]
    rw [if_neg hback, if_pos hreturn, if_neg hback, if_pos hreturn]
    refine ⟨_, rfl, iff_of_true (H.moveCursor rfl rfl rfl hcursor) fun h => ?_⟩
    simp [hreturn] at h
  rw [if_neg hback, if_neg hreturn, if_neg hback, if_neg hreturn]
  by_cases hline : b = 10
  · obtain ⟨st', heq, hiff⟩ := H.newline_iff hsvga hrows
    rw [if_pos hline, if_pos hline]
    exact ⟨st', heq, hiff.trans (by simp [hline])⟩
  · obtain ⟨st', heq, hiff⟩ := H.glyph_iff hsvga hrows b
    rw [if_neg hline, if_neg hline]
    exact ⟨st', heq, hiff.trans (by simp [hback, hreturn, hline])⟩

/-- A scroll leaves the strip in the background of the moment. -/
theorem scroll_strip (S : Screen st) (hsvga : SoftwareAlike svga) (hheight : 32 ≤ st.info.height)
    (hrows : 2 ≤ rows) (hstrip : StripCurrent st)
    (h : (if st.cursorRow ≥ rows then consoleScroll svga st else some st) = some st') :
    StripCurrent st' := by
  split_ifs at h with hscroll
  · obtain ⟨u, hu, M⟩ := consoleScroll_scrolled S hsvga (by omega) (by omega)
    cases hu.symm.trans h
    unfold StripCurrent
    rw [M.info_eq, M.background_eq]
    intro px py hpx hpy hin
    rw [M.pixels px py (by omega) hin, if_neg (by omega)]
  · exact Option.some.inj h ▸ hstrip

/-- As long as the colours stay, the strip is clean after a byte if it was before. -/
theorem Shows.byte_strip (H : Shows st g) (hsvga : SoftwareAlike svga) (hrows : 2 ≤ rows) {b : UInt8}
    (hstrip : StripCurrent st) (h : consoleByte svga st columns rows b = some st') :
    StripCurrent st' := by
  have hheight : 32 ≤ st.info.height := by
    have hrow := H.rows_eq
    omega
  unfold consoleByte at h
  split_ifs at h with hback hreturn hline
  · obtain ⟨u, hu, W⟩ := H.stepBack.fillCell hsvga
    cases hu.symm.trans h
    refine (W.strip H.stepBack).mpr ?_
    unfold ConsoleModel.stepBack
    split_ifs <;> exact hstrip
  · exact Option.some.inj h ▸ hstrip
  · have S : Screen (nextLine st) := H.screen.of_eq rfl rfl rfl
    exact scroll_strip S hsvga hheight hrows hstrip h
  · obtain ⟨u, hu, W⟩ := H.consoleCharacter hsvga b
    have hu' : StripCurrent u := (W.strip H).mpr hstrip
    have hinfo := W.frame.info_eq
    have S := H.screen.congr W.frame
    have hlow : 32 ≤ u.info.height := hinfo ▸ hheight
    unfold putCharacter at h
    rw [hu, Option.map_some, Option.bind_some] at h
    dsimp only at h
    have Sright : Screen { u with cursorColumn := add64 u.cursorColumn 1 } := S.of_eq rfl rfl rfl
    by_cases hwrap : add64 u.cursorColumn 1 ≥ columns
    · have Snext : Screen (nextLine { u with cursorColumn := add64 u.cursorColumn 1 }) :=
        Sright.of_eq rfl rfl rfl
      rw [if_pos hwrap] at h
      exact scroll_strip Snext hsvga hlow hrows hu' h
    · rw [if_neg hwrap] at h
      exact scroll_strip Sright hsvga hlow hrows hu' h

end Bytes

section Clear

variable {svga : Svga} {st : FramebufferState}

theorem two_le_columns (hwidth : 16 ≤ st.info.width) : 2 ≤ st.info.width / 8 := by omega

theorem two_le_rows (hheight : 32 ≤ st.info.height) : 2 ≤ st.info.height / 16 := by omega

theorem consoleClear_info (S : Screen st) (hsvga : SoftwareAlike svga) (background : UInt32) :
    (consoleClear svga st background).info = st.info := by
  have hscreen : Screen { st with background := background } :=
    S.of_eq rfl rfl rfl
  exact (hscreen.framebufferClear_paints hsvga.fills background).frame.info_eq

theorem consoleClear_shows (S : Screen st) (hsvga : SoftwareAlike svga)
    (hwidth : 16 ≤ st.info.width) (hheight : 32 ≤ st.info.height) (background : UInt32) :
    Shows (consoleClear svga st background)
      (Grid.clear (two_le_columns hwidth) (two_le_rows hheight) st.foreground background) := by
  have hscreen : Screen { st with background := background } :=
    S.of_eq rfl rfl rfl
  have P := hscreen.framebufferClear_paints hsvga.fills background
  have hcleared := hscreen.congr P.frame
  have hinfo := consoleClear_info S hsvga background
  refine ⟨hcleared.of_eq rfl rfl rfl, ?_, ?_, rfl, rfl, ?_, ?_, fun px py hpx hpy => ?_⟩
  · rw [hinfo]
  · rw [hinfo]
  · unfold consoleClear
    dsimp only
    rw [P.frame]
    rfl
  · unfold consoleClear
    dsimp only
    rw [P.frame]
    rfl
  · exact P.inside px py (show px < st.info.width by omega) (show py < st.info.height by omega)
      trivial

theorem consoleClear_background (S : Screen st) (hsvga : SoftwareAlike svga) (background : UInt32) :
    (consoleClear svga st background).background = background := by
  have hscreen : Screen { st with background := background } := S.of_eq rfl rfl rfl
  have P := hscreen.framebufferClear_paints hsvga.fills background
  unfold consoleClear
  dsimp only
  rw [P.frame]

theorem consoleClear_strip (S : Screen st) (hsvga : SoftwareAlike svga) (background : UInt32) :
    StripCurrent (consoleClear svga st background) := by
  have hscreen : Screen { st with background := background } := S.of_eq rfl rfl rfl
  have P := hscreen.framebufferClear_paints hsvga.fills background
  unfold StripCurrent
  rw [consoleClear_info S hsvga, consoleClear_background S hsvga]
  intro px py hpx _ hin
  exact P.inside px py (show px < st.info.width by omega) hin trivial

/-- New letters on the same background. -/
theorem StripCurrent.setForeground (h : StripCurrent st) (foreground : UInt32) {background : UInt32}
    (hback : st.background = background) :
    StripCurrent (consoleSetColors st foreground background) := by
  subst hback
  exact h

end Clear

/-- The calls on the console. -/
inductive ConsoleCall where
  | setColors (foreground background : UInt32)
  | write (text : Option (List UInt8))
  deriving DecidableEq, Repr

def ConsoleCall.perform (svga : Svga) (st : FramebufferState) : ConsoleCall → Option FramebufferState
  | .setColors foreground background => some (consoleSetColors st foreground background)
  | .write text => consoleWriteN svga st text

/-- What a call does to the grid. -/
def ConsoleCall.onGrid {columns rows : ℕ} (g : Grid columns rows) : ConsoleCall → Grid columns rows
  | .setColors foreground background => g.setColors foreground background
  | .write text => (text.getD []).foldl Grid.byte g

/-- No byte of the text moves stale pixels onto the last row. -/
def CleanText (svga : Svga) (columns rows : ℕ) : FramebufferState → List UInt8 → Prop
  | _, [] => True
  | st, b :: text => (Scrolls st b → StripCurrent st) ∧
      ∀ st', consoleByte svga st columns rows b = some st' → CleanText svga columns rows st' text

def CleanCall (svga : Svga) (st : FramebufferState) : ConsoleCall → Prop
  | .setColors _ _ => True
  | .write text => CleanText svga (st.info.width / 8) (st.info.height / 16) st (text.getD [])

/-- A clean call and its result. -/
def CleanStep (svga : Svga) (st : FramebufferState) (c : ConsoleCall) (st' : FramebufferState) :
    Prop :=
  CleanCall svga st c ∧ c.perform svga st = some st'

section Runs

variable {svga : Svga} {st st' : FramebufferState} {columns rows : ℕ} {g : Grid columns rows}

theorem Shows.text (H : Shows st g) (hsvga : SoftwareAlike svga) (hrows : 2 ≤ rows)
    (text : List UInt8) (hclean : CleanText svga columns rows st text) :
    ∃ st', text.foldlM (fun st b => consoleByte svga st columns rows b) st = some st' ∧
      Shows st' (text.foldl Grid.byte g) := by
  induction text generalizing st g with
  | nil => exact ⟨st, rfl, H⟩
  | cons b text ih =>
    obtain ⟨u, hu, hiff⟩ := H.byte_iff hsvga hrows b
    obtain ⟨st', heq, H'⟩ := ih (hiff.mpr hclean.1) (hclean.2 u hu)
    refine ⟨st', ?_, H'⟩
    rw [List.foldlM_cons, hu]
    exact heq

/-- While the strip has the current background, every text is clean. -/
theorem Shows.cleanText (H : Shows st g) (hsvga : SoftwareAlike svga) (hrows : 2 ≤ rows)
    (hstrip : StripCurrent st) (text : List UInt8) : CleanText svga columns rows st text := by
  induction text generalizing st g with
  | nil => trivial
  | cons b text ih =>
    refine ⟨fun _ => hstrip, fun st' h => ?_⟩
    obtain ⟨u, hu, hiff⟩ := H.byte_iff hsvga hrows b
    cases hu.symm.trans h
    exact ih (hiff.mpr fun _ => hstrip) (H.byte_strip hsvga hrows hstrip hu)

theorem Shows.call (H : Shows st g) (hsvga : SoftwareAlike svga) (hrows : 2 ≤ rows) (c : ConsoleCall)
    (hclean : CleanCall svga st c) :
    ∃ st', c.perform svga st = some st' ∧ Shows st' (c.onGrid g) := by
  cases c with
  | setColors foreground background =>
    exact ⟨_, rfl, H.screen.of_eq rfl rfl rfl, H.columns_eq, H.rows_eq, H.column_eq, H.row_eq, rfl,
      rfl, H.pixels⟩
  | write text =>
    cases text with
    | none => exact ⟨st, rfl, H⟩
    | some text =>
      unfold CleanCall at hclean
      rw [H.columns_eq, H.rows_eq] at hclean
      obtain ⟨st', heq, H'⟩ := H.text hsvga hrows text hclean
      refine ⟨st', ?_, H'⟩
      unfold ConsoleCall.perform consoleWriteN
      rw [← H.columns_eq, ← H.rows_eq] at heq
      simpa [H.screen.initialized] using heq

/-- After a clear and any calls that move no stale pixels onto the last row, the screen shows the
grid that the calls describe, and each further call of that kind has a result. -/
theorem run_shows (S : Screen st) (hsvga : SoftwareAlike svga) (hwidth : 16 ≤ st.info.width)
    (hheight : 32 ≤ st.info.height) {background : UInt32} {calls : List ConsoleCall}
    (hrun : Run (CleanStep svga) (consoleClear svga st background) calls st') :
    Shows st' (calls.foldl ConsoleCall.onGrid
        (Grid.clear (two_le_columns hwidth) (two_le_rows hheight) st.foreground background)) ∧
      ∀ c, CleanCall svga st' c → ∃ st'', c.perform svga st' = some st'' := by
  have hrows := two_le_rows hheight
  have hstep : ∀ (u : FramebufferState) (c : ConsoleCall) (u' : FramebufferState)
      (g : Grid (st.info.width / 8) (st.info.height / 16)), Shows u g → CleanStep svga u c u' →
      ∃ g', c.onGrid g = g' ∧ Shows u' g' := by
    rintro u c u' g H ⟨hclean, hperform⟩
    obtain ⟨v, hv, H'⟩ := H.call hsvga hrows c hclean
    rw [hperform, Option.some.injEq] at hv
    exact ⟨_, rfl, hv ▸ H'⟩
  obtain ⟨g, hgrid, H⟩ := hrun.simulate (fun st g => Shows st g) hstep
    (consoleClear_shows S hsvga hwidth hheight background)
  rw [hgrid.eq_foldl]
  refine ⟨H, fun c hclean => ?_⟩
  obtain ⟨st'', heq, -⟩ := H.call hsvga hrows c hclean
  exact ⟨st'', heq⟩

/-- Two columns and two rows of text on a screen of the given height. -/
def twoRows (height : ℕ) : FramebufferState :=
  ⟨fun _ => 0, 4096, ⟨16, height, 64, 32, 16, 8, 0, 8, 8, 8⟩, 1, 1, 0, 0, true⟩

theorem twoRows_screen : Screen (twoRows 40) := by constructor <;> decide

/-- New letters on the old background, and any text. -/
theorem twoRows_clean (text : List UInt8) : ∃ u st' : FramebufferState,
    consoleSetColors (consoleClear Svga.absent (twoRows 40) 3) 1 3 = u ∧
      CleanStep Svga.absent u (.write (some text)) st' := by
  have H := consoleClear_shows twoRows_screen softwareAlike_absent (by decide) (by decide) 3
  obtain ⟨u, hu, H'⟩ := H.call softwareAlike_absent (by decide) (.setColors 1 3) trivial
  have hcolors : consoleSetColors (consoleClear Svga.absent (twoRows 40) 3) 1 3 = u :=
    Option.some.inj hu
  have hstrip : StripCurrent u := by
    rw [← hcolors]
    exact (consoleClear_strip twoRows_screen softwareAlike_absent 3).setForeground 1
      (consoleClear_background twoRows_screen softwareAlike_absent 3)
  have hclean : CleanCall Svga.absent u (.write (some text)) := by
    unfold CleanCall
    rw [H'.columns_eq, H'.rows_eq]
    exact H'.cleanText softwareAlike_absent (by decide) hstrip _
  obtain ⟨st', hst', -⟩ := H'.call softwareAlike_absent (by decide) _ hclean
  exact ⟨u, st', hcolors, hclean, hst'⟩

/-- The letter in the last cell wraps and scrolls, and the last newline scrolls again. Each time the
strip comes into the last row, in the background of the moment. -/
theorem run_shows_twoRows : ∃ st',
    Run (CleanStep Svga.absent) (consoleClear Svga.absent (twoRows 40) 3)
      [.setColors 1 3, .write (some [10, 65, 66, 10])] st' ∧
    Shows st' (([.setColors 1 3, .write (some [10, 65, 66, 10])] : List ConsoleCall).foldl
      ConsoleCall.onGrid (Grid.clear (two_le_columns (by decide : 16 ≤ (twoRows 40).info.width))
        (two_le_rows (by decide : 32 ≤ (twoRows 40).info.height)) 0 3)) := by
  obtain ⟨u, st', hcolors, hwrite⟩ := twoRows_clean [10, 65, 66, 10]
  have hrun : Run (CleanStep Svga.absent) (consoleClear Svga.absent (twoRows 40) 3)
      [.setColors 1 3, .write (some [10, 65, 66, 10])] st' :=
    .cons ⟨trivial, congrArg some hcolors⟩ (.cons hwrite (.nil st'))
  exact ⟨st', hrun, (run_shows twoRows_screen softwareAlike_absent (by decide) (by decide) hrun).1⟩

/-- Eight pixel rows below the text: after a change of colours a scroll brings them, in the old
background, into the last row, which ought to be blank in the new one. -/
theorem scroll_shows_strip : Screen (twoRows 40) ∧
    (([.setColors 1 2, .write (some [10])] : List ConsoleCall).foldlM
      (ConsoleCall.perform Svga.absent) (consoleClear Svga.absent (twoRows 40) 0)).map
        (fun st => pixel st 0 16) = some 0 ∧
    (([.setColors 1 2, .write (some [10])] : List ConsoleCall).foldl ConsoleCall.onGrid
      (Grid.clear (by decide) (by decide) 0 0 : Grid 2 2)).cell 0 1 = .blank 2 ∧
    render (.blank 2) 0 0 = 2 :=
  ⟨by constructor <;> decide, by decide +kernel, rfl, rfl⟩

end Runs

end JsOs.ConsoleRefinement

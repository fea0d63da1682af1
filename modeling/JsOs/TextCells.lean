import JsOs.ConsoleCursor

/-!
# Text cells in reading order

The cells of the text grid are counted row by row. What a character, a backspace and the cursor
block change is said of single cells, so nothing is asked of the rest of the screen.
-/

namespace JsOs.TextCells

open MachineWords FramebufferModel FramebufferPainting ConsoleModel TextGrid ConsoleRefinement
open ConsoleCursor

section Cells

variable {st st' : FramebufferState} {i n : ℕ} {c : Cell}

/-- The cell at the cursor. -/
def cursorCell (st : FramebufferState) : ℕ :=
  st.cursorRow * (st.info.width / 8) + st.cursorColumn

theorem cursorCell_congr (h : SameFrame st st') : cursorCell st' = cursorCell st := by
  unfold cursorCell
  rw [h]

/-- All pixels of the cell are those of `c`. -/
def CellShows (st : FramebufferState) (i : ℕ) (c : Cell) : Prop :=
  ∀ px py, px / 8 < st.info.width / 8 → py / 16 < st.info.height / 16 →
    py / 16 * (st.info.width / 8) + px / 8 = i → pixel st px py = render c (px % 8) (py % 16)

theorem cell_unique {a b x y : ℕ} (hx : x < n) (hy : y < n) (h : a * n + x = b * n + y) :
    a = b ∧ x = y := by
  have hdiv := congrArg (· / n) h
  have hpos : 0 < n := Nat.zero_lt_of_lt hx
  simp only [Nat.mul_comm _ n, Nat.mul_add_div hpos, Nat.div_eq_of_lt hx, Nat.div_eq_of_lt hy,
    Nat.add_zero] at hdiv
  subst hdiv
  exact ⟨rfl, Nat.add_left_cancel h⟩

theorem cursorCell_lt (G : OnGrid st) :
    cursorCell st < st.info.height / 16 * (st.info.width / 8) := by
  have hc := G.column_lt
  have hr := G.row_lt
  have hle : (st.cursorRow + 1) * (st.info.width / 8) ≤ st.info.height / 16 * (st.info.width / 8) :=
    Nat.mul_le_mul_right _ hr
  rw [Nat.succ_mul] at hle
  unfold cursorCell
  omega

/-- The pixels of the cell at the cursor. -/
theorem inCell_iff (G : OnGrid st) {px py : ℕ} (hpx : px / 8 < st.info.width / 8) :
    InCell st.cursorColumn st.cursorRow px py ↔
      py / 16 * (st.info.width / 8) + px / 8 = cursorCell st := by
  constructor
  · rintro ⟨hx, hy⟩
    rw [hx, hy]
    rfl
  · intro h
    obtain ⟨hy, hx⟩ := cell_unique hpx G.column_lt h
    exact ⟨hx, hy⟩

theorem CellShows.congr (h : CellShows st i c) (hinfo : st'.info = st.info)
    (hpixel : ∀ px py, pixel st' px py = pixel st px py) : CellShows st' i c := by
  intro px py hpx hpy hi
  rw [hinfo] at hpx hpy hi
  rw [hpixel]
  exact h px py hpx hpy hi

/-- Painting at the cursor changes no other cell. -/
theorem other_cell (G : OnGrid st) (hframe : SameFrame st st')
    (houtside : ∀ px py, px < st.info.width → py < st.info.height →
      ¬InCell st.cursorColumn st.cursorRow px py → pixel st' px py = pixel st px py)
    (hi : i ≠ cursorCell st) (h : CellShows st i c) : CellShows st' i c := by
  intro px py hpx hpy hcell
  rw [hframe.info_eq] at hpx hpy hcell
  rw [houtside px py (by omega) (by omega) fun hin => ?_]
  · exact h px py hpx hpy hcell
  · exact hi (hcell.symm.trans ((inCell_iff G hpx).mp hin))

theorem painted_cell (G : OnGrid st) (hframe : SameFrame st st')
    (hinside : ∀ px py, px < st.info.width → py < st.info.height →
      InCell st.cursorColumn st.cursorRow px py → pixel st' px py = render c (px % 8) (py % 16)) :
    CellShows st' (cursorCell st) c := by
  intro px py hpx hpy hcell
  rw [hframe.info_eq] at hpx hpy hcell
  exact hinside px py (by omega) (by omega) ((inCell_iff G hpx).mpr hcell)

end Cells

section Bytes

variable {svga : Svga} {st : FramebufferState} {b : UInt8}

/-- How often the screen scrolled. -/
def scrollCount (marks : List Mark) : ℕ :=
  marks.countP fun mark => match mark with
    | .scroll _ _ => true
    | _ => false

theorem scrollCount_append (marks marks' : List Mark) :
    scrollCount (marks ++ marks') = scrollCount marks + scrollCount marks' := List.countP_append ..

/-- The cursor block. -/
theorem cursorVisible_spec (G : OnGrid st) (hsvga : SoftwareAlike svga) (visible : Bool) :
    ∃ st', consoleSetCursorVisible svga st visible = some st' ∧ SameFrame st st' ∧
      ∀ i c, i ≠ cursorCell st → CellShows st i c → CellShows st' i c := by
  obtain ⟨st', heq, P⟩ := fillCell_paints G.screen hsvga G.column_lt G.row_lt
    (if visible then st.foreground else st.background)
  refine ⟨st', ?_, P.frame, fun i c hi => other_cell G P.frame P.outside hi⟩
  unfold consoleSetCursorVisible
  rw [if_neg (by simp [G.screen.initialized])]
  exact heq

/-- Output from `st` to `st'`: `scrolls` rows have gone, and the cells before `limit` show what they
showed. -/
structure Moves (st st' : FramebufferState) (limit scrolls : ℕ) : Prop where
  grid : OnGrid st'
  info_eq : st'.info = st.info
  foreground_eq : st'.foreground = st.foreground
  background_eq : st'.background = st.background
  cells : ∀ i c, i < limit → scrolls * (st.info.width / 8) ≤ i → CellShows st i c →
    CellShows st' (i - scrolls * (st.info.width / 8)) c

theorem Moves.trans {st' st'' : FramebufferState} {limit : ℕ} (M : Moves st st' limit 0)
    (M' : Moves st' st'' limit 0) : Moves st st'' limit 0 := by
  refine ⟨M'.grid, M'.info_eq.trans M.info_eq, M'.foreground_eq.trans M.foreground_eq,
    M'.background_eq.trans M.background_eq, fun i c hi _ h => ?_⟩
  have h' := M.cells i c hi (by omega) h
  simp only [Nat.zero_mul, Nat.sub_zero] at h' ⊢
  have h'' := M'.cells i c hi (by omega) h'
  rwa [Nat.zero_mul, Nat.sub_zero] at h''

/-- What a cell shows goes up by a row. -/
theorem scrolled_cell (M : Scrolled st st') {i : ℕ} {c : Cell}
    (hi : i < st.info.height / 16 * (st.info.width / 8)) (hle : st.info.width / 8 ≤ i)
    (h : CellShows st i c) : CellShows st' (i - st.info.width / 8) c := by
  intro px py hpx hpy hcell
  rw [M.info_eq] at hpx hpy hcell
  -- the row below is still on the grid
  have hnext : (py / 16 + 1) * (st.info.width / 8) + px / 8 = i := by
    rw [Nat.succ_mul]
    omega
  have hbelow : py / 16 + 1 < st.info.height / 16 := by
    by_contra hnot
    have hfar := Nat.mul_le_mul_right (st.info.width / 8) (not_lt.mp hnot)
    omega
  rw [M.pixels px py (by omega) (by omega), if_pos (by omega),
    h px (py + 16) hpx (by omega)
      (by rw [show (py + 16) / 16 = py / 16 + 1 by omega]; exact hnext),
    show (py + 16) % 16 = py % 16 by omega]

/-- The cursor stands at the start of a row, or below the last one, and then the screen scrolls. -/
theorem lineStart_moves (S : Screen st) (hsvga : SoftwareAlike svga)
    (hcolumns : 2 ≤ st.info.width / 8) (hrows : 2 ≤ st.info.height / 16)
    (hcolumn : st.cursorColumn = 0) (hrow : 0 < st.cursorRow)
    (hle : st.cursorRow ≤ st.info.height / 16) (marks : List Mark) :
    ∃ marks' st' k, k = (if st.cursorRow = st.info.height / 16 then 1 else 0) ∧
      scrollMarks svga st (st.info.height / 16) marks = some (marks', st') ∧
      scrollCount marks' = scrollCount marks + k ∧
      Moves st st' (st.info.height / 16 * (st.info.width / 8)) k ∧
      cursorCell st' + k * (st.info.width / 8) = cursorCell st := by
  unfold scrollMarks
  by_cases hlast : st.cursorRow = st.info.height / 16
  · obtain ⟨st', heq, M⟩ := consoleScroll_scrolled S hsvga (by omega) hrow
    have hinfo : st'.info = st.info := M.info_eq
    have hcolumn' : st'.cursorColumn = 0 := M.column_eq.trans hcolumn
    have hrow' : st'.cursorRow = st.cursorRow - 1 := M.row_eq
    have hgrid : OnGrid st' := by
      refine ⟨M.screen, ?_, ?_, ?_, ?_⟩ <;> rw [hinfo] <;> omega
    rw [if_pos hlast.ge, heq]
    refine ⟨_, st', 1, (if_pos hlast).symm, rfl, ?_,
      ⟨hgrid, hinfo, M.foreground_eq, M.background_eq, fun i c hi hle h => ?_⟩, ?_⟩
    · rw [scrollCount_append]
      rfl
    · rw [Nat.one_mul] at hle ⊢
      exact scrolled_cell M hi hle h
    · unfold cursorCell
      rw [hinfo, hcolumn', hrow', hcolumn, Nat.add_zero, Nat.add_zero, ← Nat.add_mul]
      congr 1
      omega
  · rw [if_neg (show ¬st.cursorRow ≥ st.info.height / 16 by omega)]
    refine ⟨_, st, 0, (if_neg hlast).symm, rfl, ?_,
      ⟨⟨S, hcolumns, hrows, by omega, by omega⟩, rfl, rfl, rfl, fun i c _ _ h => ?_⟩,
      by rw [Nat.zero_mul, Nat.add_zero]⟩
    · rw [scrollCount_append]
      rfl
    · rwa [Nat.zero_mul, Nat.sub_zero]

/-- The character stands where the cursor was, and the cursor is one cell further, perhaps below the
last row. -/
structure Draws (st : FramebufferState) (b : UInt8) (u : FramebufferState) : Prop where
  screen : Screen u
  info_eq : u.info = st.info
  foreground_eq : u.foreground = st.foreground
  background_eq : u.background = st.background
  others : ∀ i c, i ≠ cursorCell st → CellShows st i c → CellShows u i c
  drawn : CellShows u (cursorCell st) (.glyph b st.foreground st.background)
  cursor_eq : cursorCell u = cursorCell st + 1
  cursor : u.cursorColumn = 0 ∧ u.cursorRow = st.cursorRow + 1 ∨
    u.cursorColumn < st.info.width / 8 ∧ u.cursorRow = st.cursorRow

theorem putCharacter_draws (G : OnGrid st) (hsvga : SoftwareAlike svga) (b : UInt8) :
    ∃ u, putCharacter svga st (st.info.width / 8) b = some u ∧ Draws st b u := by
  obtain ⟨v, heq, hframe, hpixel⟩ := consoleCharacter_spec G.screen hsvga G.column_lt G.row_lt b
  have hinfo := hframe.info_eq
  have S := G.screen.congr hframe
  have hcolumn := G.column_lt
  have hcells : ∀ i c, i ≠ cursorCell st → CellShows st i c → CellShows v i c := fun i c hi =>
    other_cell G hframe (fun px py hpx hpy => (hpixel px py hpx hpy).2) hi
  have hglyph : CellShows v (cursorCell st) (.glyph b st.foreground st.background) :=
    painted_cell G hframe fun px py hpx hpy => (hpixel px py hpx hpy).1
  have hcolumn' : add64 v.cursorColumn 1 = st.cursorColumn + 1 := by
    rw [hframe]
    exact G.add64_column
  have hrow' : add64 v.cursorRow 1 = st.cursorRow + 1 := by
    rw [hframe]
    exact G.add64_row
  unfold putCharacter nextLine
  rw [heq, Option.map_some]
  dsimp only
  rw [hcolumn', hrow']
  -- where the cursor goes, the pixels do not matter
  by_cases hwrap : st.cursorColumn + 1 ≥ st.info.width / 8
  · rw [if_pos hwrap]
    refine ⟨_, rfl, S.of_eq rfl rfl rfl, hinfo, by rw [hframe], by rw [hframe],
      fun i c hi h => (hcells i c hi h).congr rfl fun _ _ => rfl,
      hglyph.congr rfl fun _ _ => rfl, ?_, .inl ⟨rfl, rfl⟩⟩
    unfold cursorCell
    dsimp only
    rw [hinfo, Nat.succ_mul]
    omega
  · rw [if_neg hwrap]
    refine ⟨_, rfl, S.of_eq rfl rfl rfl, hinfo, by rw [hframe], by rw [hframe],
      fun i c hi h => (hcells i c hi h).congr rfl fun _ _ => rfl,
      hglyph.congr rfl fun _ _ => rfl, ?_, .inr ⟨not_le.mp hwrap, by rw [hframe]⟩⟩
    unfold cursorCell
    dsimp only
    rw [hinfo, hframe]
    rfl

/-- The character stands where the cursor was and the cursor behind it, moved up with the `scrolls`
rows that have gone. -/
structure Writes (st : FramebufferState) (b : UInt8) (st' : FramebufferState) (scrolls : ℕ) :
    Prop where
  moves : Moves st st' (cursorCell st) scrolls
  cursor_eq : cursorCell st' + scrolls * (st.info.width / 8) = cursorCell st + 1
  glyph : scrolls * (st.info.width / 8) ≤ cursorCell st →
    CellShows st' (cursorCell st - scrolls * (st.info.width / 8))
      (.glyph b st.foreground st.background)

/-- The character was the last one of its row. -/
theorem Draws.wrap {u : FramebufferState} (D : Draws st b u) (G : OnGrid st)
    (hsvga : SoftwareAlike svga) (hcolumn : u.cursorColumn = 0)
    (hrow : u.cursorRow = st.cursorRow + 1) (marks : List Mark) :
    ∃ marks' st' k,
      k = (if cursorCell st + 1 = st.info.height / 16 * (st.info.width / 8) then 1 else 0) ∧
      scrollMarks svga u (st.info.height / 16) marks = some (marks', st') ∧
      scrollCount marks' = scrollCount marks + k ∧ Writes st b st' k := by
  have hinfo := D.info_eq
  have hcolumns := G.columns_ge
  have hrows := G.rows_ge
  have hlt := G.row_lt
  have hcursor := D.cursor_eq
  have hlimit := cursorCell_lt G
  obtain ⟨marks', st', k, hk, hmarks, hcount, M, hcursor'⟩ := lineStart_moves D.screen hsvga
    (by rw [hinfo]; exact hcolumns) (by rw [hinfo]; exact hrows) hcolumn (by omega)
    (by rw [hinfo]; omega) marks
  have hcells := M.cells
  rw [hinfo] at hk hmarks hcells hcursor'
  rw [hcursor] at hcursor'
  have hsum : cursorCell st + 1 = u.cursorRow * (st.info.width / 8) := by
    rw [← hcursor]
    unfold cursorCell
    rw [hinfo, hcolumn, Nat.add_zero]
  have hlast : u.cursorRow = st.info.height / 16 ↔
      cursorCell st + 1 = st.info.height / 16 * (st.info.width / 8) := by
    rw [hsum, Nat.mul_left_inj (by omega)]
  simp only [hlast] at hk
  exact ⟨marks', st', k, hk, hmarks, hcount, ⟨M.grid, M.info_eq.trans hinfo,
    M.foreground_eq.trans D.foreground_eq, M.background_eq.trans D.background_eq,
    fun i c hi hle h => hcells i c (by omega) hle (D.others i c (by omega) h)⟩, hcursor',
    fun hle => hcells _ _ hlimit hle D.drawn⟩

/-- There is room behind the character in its row. -/
theorem Draws.stay {u : FramebufferState} (D : Draws st b u) (G : OnGrid st)
    (hcolumn : u.cursorColumn < st.info.width / 8) (hrow : u.cursorRow = st.cursorRow) :
    OnGrid u ∧ Writes st b u 0 := by
  have hgrid : OnGrid u := G.of_info D.screen D.info_eq hcolumn (hrow.trans_lt G.row_lt)
  refine ⟨hgrid, ⟨hgrid, D.info_eq, D.foreground_eq, D.background_eq, fun i c hi _ h => ?_⟩, ?_,
    fun _ => ?_⟩
  · rw [Nat.zero_mul, Nat.sub_zero]
    exact D.others i c (by omega) h
  · rw [Nat.zero_mul, Nat.add_zero, D.cursor_eq]
  · rw [Nat.zero_mul, Nat.sub_zero]
    exact D.drawn

/-- A character on the last cell scrolls the screen. -/
theorem character_moves (G : OnGrid st) (hsvga : SoftwareAlike svga) (hback : b ≠ 8)
    (hreturn : b ≠ 13) (hline : b ≠ 10) :
    ∃ marks st' k,
      k = (if cursorCell st + 1 = st.info.height / 16 * (st.info.width / 8) then 1 else 0) ∧
      byteMarks svga st (st.info.width / 8) (st.info.height / 16) b = some (marks, st') ∧
      scrollCount marks = k ∧ Writes st b st' k := by
  obtain ⟨u, heq, D⟩ := putCharacter_draws G hsvga b
  unfold byteMarks
  rw [if_neg hback, if_neg hreturn, if_neg hline, heq, Option.bind_some]
  rcases D.cursor with ⟨hcolumn, hrow⟩ | ⟨hcolumn, hrow⟩
  · obtain ⟨marks, st', k, hk, hmarks, hcount, hwrites⟩ :=
      D.wrap G hsvga hcolumn hrow [.character st.cursorColumn st.cursorRow]
    exact ⟨marks, st', k, hk, hmarks, hcount.trans (Nat.zero_add k), hwrites⟩
  · obtain ⟨hgrid, hwrites⟩ := D.stay G hcolumn hrow
    have hlt := cursorCell_lt hgrid
    rw [D.info_eq, D.cursor_eq] at hlt
    have hrow_lt := G.row_lt
    unfold scrollMarks
    rw [if_neg (show ¬u.cursorRow ≥ st.info.height / 16 by omega)]
    exact ⟨_, u, 0, (if_neg hlt.ne).symm, rfl, rfl, hwrites⟩

theorem cursorCell_stepBack (G : OnGrid st) (hpos : 0 < cursorCell st) :
    cursorCell (stepBack st (st.info.width / 8)) + 1 = cursorCell st := by
  have hcolumns := G.columns_ge
  unfold cursorCell at hpos ⊢
  rw [G.stepBack.2]
  unfold stepBack
  split_ifs with hleft hup
  · dsimp only
    omega
  · obtain ⟨n, hn⟩ : ∃ n, st.cursorRow = n + 1 := ⟨st.cursorRow - 1, by omega⟩
    dsimp only
    rw [hn, Nat.succ_mul, Nat.add_sub_cancel]
    omega
  · have hrow : st.cursorRow = 0 := by omega
    rw [hrow] at hpos
    omega

/-- The step back changes nothing but the cursor. -/
theorem stepBack_same (st : FramebufferState) (columns : ℕ) :
    (stepBack st columns).foreground = st.foreground ∧
      (stepBack st columns).background = st.background ∧
      ∀ px py, pixel (stepBack st columns) px py = pixel st px py := by
  unfold stepBack
  split_ifs <;> exact ⟨rfl, rfl, fun _ _ => rfl⟩

/-- A backspace takes the cursor one cell back. -/
theorem backspace_moves (G : OnGrid st) (hsvga : SoftwareAlike svga) (hpos : 0 < cursorCell st) :
    ∃ marks st', byteMarks svga st (st.info.width / 8) (st.info.height / 16) 8 = some (marks, st') ∧
      scrollCount marks = 0 ∧ Moves st st' (cursorCell st - 1) 0 ∧
      cursorCell st' + 1 = cursorCell st := by
  obtain ⟨hstep, hinfo⟩ := G.stepBack
  have hcursor := cursorCell_stepBack G hpos
  obtain ⟨hfore, hback, hpixel⟩ := stepBack_same st (st.info.width / 8)
  obtain ⟨st', heq, P⟩ := fillCell_paints hstep.screen hsvga hstep.column_lt hstep.row_lt
    (stepBack st (st.info.width / 8)).background
  have hsame : cursorCell st' = cursorCell (stepBack st (st.info.width / 8)) :=
    cursorCell_congr P.frame
  unfold byteMarks
  rw [if_pos rfl]
  dsimp only
  rw [heq]
  refine ⟨_, st', rfl, rfl, ⟨hstep.congr P.frame, P.frame.info_eq.trans hinfo, ?_, ?_,
    fun i c hi _ h => ?_⟩, by rw [hsame]; exact hcursor⟩
  · rw [P.frame]
    exact hfore
  · rw [P.frame]
    exact hback
  · rw [Nat.zero_mul, Nat.sub_zero]
    exact other_cell hstep P.frame P.outside (by omega) (h.congr hinfo hpixel)

/-- Backspace, blank, backspace: the cell before the cursor goes. -/
theorem erase_moves (G : OnGrid st) (hsvga : SoftwareAlike svga) (hpos : 0 < cursorCell st) :
    ∃ marks st', textMarks svga (st.info.width / 8) (st.info.height / 16) st [8, chr ' ', 8] =
        some (marks, st') ∧ scrollCount marks = 0 ∧ Moves st st' (cursorCell st - 1) 0 ∧
      cursorCell st' + 1 = cursorCell st := by
  have hlimit := cursorCell_lt G
  obtain ⟨marks₁, st₁, heq₁, hcount₁, M₁, hcursor₁⟩ := backspace_moves G hsvga hpos
  obtain ⟨marks₂, st₂, k, hk, heq₂, hcount₂, M₂, hcursor₂, -⟩ :=
    character_moves M₁.grid hsvga (b := chr ' ') (by decide) (by decide) (by decide)
  -- the blank is drawn before the cell where the cursor was, so nothing scrolls
  rw [M₁.info_eq] at hk heq₂ hcursor₂
  rw [if_neg (by omega)] at hk
  subst hk
  rw [Nat.zero_mul, Nat.add_zero] at hcursor₂
  obtain ⟨marks₃, st₃, heq₃, hcount₃, M₃, hcursor₃⟩ := backspace_moves M₂.grid hsvga (by omega)
  rw [M₂.info_eq, M₁.info_eq] at heq₃
  refine ⟨marks₁ ++ (marks₂ ++ (marks₃ ++ [])), st₃, ?_, ?_, ?_, by omega⟩
  · simp only [textMarks, heq₁, heq₂, heq₃, Option.bind_some, Option.map_some]
  · rw [List.append_nil, scrollCount_append, scrollCount_append]
    omega
  · have h₁ : Moves st st₁ (cursorCell st - 1) 0 := M₁
    have h₂ : Moves st₁ st₂ (cursorCell st - 1) 0 := by
      rw [show cursorCell st - 1 = cursorCell st₁ by omega]
      exact M₂
    have h₃ : Moves st₂ st₃ (cursorCell st - 1) 0 := by
      rw [show cursorCell st - 1 = cursorCell st₂ - 1 by omega]
      exact M₃
    exact (h₁.trans h₂).trans h₃

end Bytes

end JsOs.TextCells

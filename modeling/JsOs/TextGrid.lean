import Mathlib.Data.Nat.Init
import Mathlib.Data.UInt

/-!
# Text grids

A grid of coloured characters with a cursor that is always on it. Text runs to the right and wraps;
moving below the last row shifts all rows up by one and leaves a blank row at the bottom.
-/

namespace JsOs.TextGrid

/-- A blank cell, or a character in its colours. -/
inductive Cell where
  | blank (background : UInt32)
  | glyph (character : UInt8) (foreground background : UInt32)
  deriving DecidableEq, Repr

structure Grid (columns rows : ℕ) where
  cell : ℕ → ℕ → Cell
  column : ℕ
  row : ℕ
  foreground : UInt32
  background : UInt32
  column_lt : column < columns
  row_lt : row < rows

namespace Grid

variable {columns rows : ℕ} (g : Grid columns rows)

/-- All cells blank, the cursor at column and row 1. -/
def clear (hcolumns : 2 ≤ columns) (hrows : 2 ≤ rows) (foreground background : UInt32) :
    Grid columns rows where
  cell _ _ := .blank background
  column := 1
  row := 1
  foreground := foreground
  background := background
  column_lt := hcolumns
  row_lt := hrows

def setColors (foreground background : UInt32) : Grid columns rows :=
  { g with foreground := foreground, background := background }

/-- Write the cell at the cursor. -/
def put (c : Cell) : Grid columns rows :=
  { g with cell := fun column row => if column = g.column ∧ row = g.row then c else g.cell column row }

def carriageReturn : Grid columns rows :=
  { g with column := 0, column_lt := Nat.zero_lt_of_lt g.column_lt }

/-- To the beginning of the next row, which is made at the bottom where there is none. -/
def newline : Grid columns rows :=
  if h : g.row + 1 < rows then { g.carriageReturn with row := g.row + 1, row_lt := h }
  else { g.carriageReturn with
    cell := fun column row =>
      if row + 1 < rows then g.cell column (row + 1) else .blank g.background }

/-- One cell to the right, or to the next row. -/
def forward : Grid columns rows :=
  if h : g.column + 1 < columns then { g with column := g.column + 1, column_lt := h } else g.newline

/-- One cell back, across the start of a row; nowhere from the first cell. -/
def back : Grid columns rows :=
  if 0 < g.column then
    { g with column := g.column - 1, column_lt := Nat.lt_of_le_of_lt (Nat.sub_le ..) g.column_lt }
  else if 0 < g.row then
    { g with
      column := columns - 1
      row := g.row - 1
      column_lt := Nat.sub_lt (Nat.zero_lt_of_lt g.column_lt) Nat.one_pos
      row_lt := Nat.lt_of_le_of_lt (Nat.sub_le ..) g.row_lt }
  else g

/-- What a byte of output does. -/
def byte (b : UInt8) : Grid columns rows :=
  if b = 8 then g.back.put (.blank g.background)
  else if b = 13 then g.carriageReturn
  else if b = 10 then g.newline
  else (g.put (.glyph b g.foreground g.background)).forward

@[simp] theorem newline_foreground : g.newline.foreground = g.foreground := by
  unfold newline
  split <;> rfl

@[simp] theorem newline_background : g.newline.background = g.background := by
  unfold newline
  split <;> rfl

@[simp] theorem back_cell : g.back.cell = g.cell := by
  unfold back
  split_ifs <;> rfl

@[simp] theorem back_foreground : g.back.foreground = g.foreground := by
  unfold back
  split_ifs <;> rfl

@[simp] theorem back_background : g.back.background = g.background := by
  unfold back
  split_ifs <;> rfl

@[simp] theorem newline_column : g.newline.column = 0 := by
  unfold newline
  split <;> rfl

theorem newline_of_lt (h : g.row + 1 < rows) :
    g.newline = { g.carriageReturn with row := g.row + 1, row_lt := h } := dif_pos h

theorem newline_row_of_last (h : ¬g.row + 1 < rows) : g.newline.row = g.row := by
  unfold newline
  rw [dif_neg h]
  rfl

theorem newline_cell_of_last (h : ¬g.row + 1 < rows) (column row : ℕ) :
    g.newline.cell column row =
      if row + 1 < rows then g.cell column (row + 1) else .blank g.background := by
  unfold newline
  rw [dif_neg h]

end Grid

end JsOs.TextGrid

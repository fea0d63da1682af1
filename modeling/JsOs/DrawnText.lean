import JsOs.MeasuredText

/-!
# Drawn text

The pixels that `framebuffer_text` paints, on the bitmap path: those under the set dots of the
glyphs, each character in the cell of its line and its column.
-/

namespace JsOs.DrawnText

open CountedLoops MachineWords FramebufferModel FramebufferPainting ConsoleFont ConsoleModel
open TextLines TextModel MeasuredText

/-- The pixels of a dot of a row of a glyph, where the dot is set. -/
def InDot (bits : ℕ) (scale : ℕ) (x y : ℤ) (row column px py : ℕ) : Prop :=
  bits.testBit column = true ∧ InRect (x + column * scale) (y + row * scale) scale scale px py

/-- The pixels of a character that is drawn at `x` and `y`: `scale` by `scale` for each dot. -/
def InGlyph (character : UInt8) (scale : ℕ) (x y : ℤ) (px py : ℕ) : Prop :=
  ∃ row < 8, ∃ column < 8,
    InDot (glyphRow (shownCharacter character) row) scale x y row column px py

/-- The pixels of a text. -/
def InText (text : List UInt8) (scale : ℕ) (x y : ℤ) (px py : ℕ) : Prop :=
  ∃ (row column : ℕ) (letters : List UInt8) (character : UInt8),
    (text.splitOn 10)[row]? = some letters ∧ letters[column]? = some character ∧
    InGlyph character scale (x + column * (8 * scale)) (y + row * (8 * scale)) px py

/-- So far the drawing has painted an area. -/
def TextPaints (area : ℕ → ℕ → Prop) (color : UInt32) (st : FramebufferState) (d : TextDrawing) :
    Prop := ∃ st', d.frame = some st' ∧ Paints area color st st'

theorem TextPaints.congr {area area' : ℕ → ℕ → Prop} {color : UInt32} {st : FramebufferState}
    {d : TextDrawing} (h : TextPaints area color st d) (harea : ∀ px py, area' px py ↔ area px py) :
    TextPaints area' color st d := by
  obtain ⟨st', hst, P⟩ := h
  exact ⟨st', hst, P.congr fun px py _ _ => harea px py⟩

section Drawing

variable {svga : Svga} {st : FramebufferState} {area : ℕ → ℕ → Prop} {d : TextDrawing} {x y : ℤ}
variable {color scale : UInt32} {row column : ℕ}

theorem characterPixel_paints (S : Screen st) (hsvga : FillsAlike svga) (hscale : scale.toNat ≤ 32)
    (hx : 0 ≤ x) (hx' : Spacious x 0) (hy : 0 ≤ y) (hy' : Spacious y 0) (character : UInt8)
    (hrow : row < 8) (hcolumn : column < 8) (h : TextPaints area color st d) :
    TextPaints (fun px py => area px py ∨
        InDot (glyphRow character row) scale.toNat x y row column px py) color st
      (characterPixel (framebufferFillRect svga) x y character color scale row column d) := by
  obtain ⟨hleft, hright⟩ := step_bounds hcolumn (Int.natCast_nonneg scale.toNat)
  obtain ⟨htop, hbottom⟩ := step_bounds hrow (Int.natCast_nonneg scale.toNat)
  by_cases hbit : (glyphRow character row).testBit column = true
  · obtain ⟨t, ht, P⟩ := h
    obtain ⟨u, hu, P'⟩ := (S.congr P.frame).fillRect_paints hsvga (x + column * scale.toNat)
      (y + row * scale.toNat) scale.toNat scale.toNat color (Or.inr (by omega)) (Or.inr (by omega))
    refine ⟨u, ?_, (P.union P').congr fun px py _ _ => by simp [InDot, hbit]⟩
    rw [characterPixel, if_pos hbit, ht, checkInt64_of_spacious hx' hleft (by omega),
      checkInt64_of_spacious hy' htop (by omega)]
    exact hu
  · rw [characterPixel, if_neg hbit]
    exact h.congr fun px py => by simp [InDot, hbit]

theorem framebufferCharacter_paints (S : Screen st) (hsvga : FillsAlike svga)
    (hscale : scale.toNat ≤ 32) (hx : 0 ≤ x) (hx' : Spacious x 0) (hy : 0 ≤ y) (hy' : Spacious y 0)
    (character : UInt8) (h : TextPaints area color st d) :
    TextPaints (fun px py => area px py ∨ InGlyph character scale.toNat x y px py) color st
      (framebufferCharacter (framebufferFillRect svga) x y character color scale d) := by
  unfold framebufferCharacter
  dsimp only
  generalize hshown : shownCharacter character = shown
  have houter := forRange_invariant (fun i t => TextPaints (fun px py => area px py ∨
      ∃ row < i, ∃ column < 8, InDot (glyphRow shown row) scale.toNat x y row column px py)
    color st t) (Nat.zero_le 8) (h.congr fun px py => by simp) fun row t _ hrow ht => by
      have hinner := forRange_invariant (fun j t => TextPaints (fun px py =>
          (area px py ∨ ∃ row' < row, ∃ column < 8,
            InDot (glyphRow shown row') scale.toNat x y row' column px py) ∨
          ∃ column < j, InDot (glyphRow shown row) scale.toNat x y row column px py)
        color st t) (Nat.zero_le 8) (ht.congr fun px py => by simp)
        fun column t' _ hcolumn ht' =>
          (characterPixel_paints S hsvga hscale hx hx' hy hy' shown hrow hcolumn ht').congr
            fun px py => by simp only [Nat.exists_lt_succ_right, or_assoc]
      exact hinner.congr fun px py => by simp only [Nat.exists_lt_succ_right, or_assoc]
  exact houter.congr fun px py => by rw [InGlyph, hshown]

/-- The rest of a text, from a row and a column on. -/
theorem textFrom_paints (S : Screen st) (hsvga : FillsAlike svga) (hscale : scale.toNat ≤ 32)
    {originX originY : ℤ} (hx : 0 ≤ originX) (hx' : originX < 2 ^ 60) (hy : 0 ≤ originY)
    (hy' : originY < 2 ^ 60) (text : List UInt8) (hrow : row + text.length < 2 ^ 53)
    (hcolumn : column + text.length < 2 ^ 53) (h : TextPaints area color st d) :
    TextPaints (fun px py => area px py ∨ ∃ p ∈ placements 10 text row column,
        InGlyph p.2.2 scale.toNat (originX + p.2.1 * (8 * scale.toNat))
          (originY + p.1 * (8 * scale.toNat)) px py) color st
      (textFrom (framebufferFillRect svga) originX color scale text
        (originX + column * (8 * scale.toNat)) (originY + row * (8 * scale.toNat)) d) := by
  have hspace {v : ℤ} {k : ℕ} (hv : 0 ≤ v) (hv' : v < 2 ^ 60) (hk : k < 2 ^ 53) :
      0 ≤ v + k * (8 * scale.toNat) ∧ v + k * (8 * scale.toNat) < 2 ^ 62 - 256 := by
    have hproduct : (k : ℤ) * (8 * scale.toNat) ≤ k * 256 :=
      Int.mul_le_mul_of_nonneg_left (by omega) (Int.natCast_nonneg k)
    have hnonneg : 0 ≤ (k : ℤ) * (8 * scale.toNat) :=
      Int.mul_nonneg (Int.natCast_nonneg k) (by omega)
    generalize (k : ℤ) * (8 * scale.toNat) = product at *
    omega
  have hnext {v : ℤ} (k : ℕ) :
      v + k * (8 * scale.toNat) + 8 * scale.toNat = v + (k + 1 : ℕ) * (8 * scale.toNat) := by
    push_cast
    ring
  induction text generalizing row column area d with
  | nil => exact h.congr fun px py => by simp [placements]
  | cons character text ih =>
    rw [List.length_cons] at hrow hcolumn
    obtain ⟨hx₀, hx₁⟩ := hspace hx hx' (show column < 2 ^ 53 by omega)
    obtain ⟨hy₀, hy₁⟩ := hspace hy hy' (show row < 2 ^ 53 by omega)
    unfold textFrom placements
    by_cases hline : (character == 10) = true
    · have hstart : originX = originX + (0 : ℕ) * (8 * scale.toNat) := by simp
      rw [if_pos hline, if_pos hline, checkInt64_of_lt (by omega) (by omega), hnext]
      nth_rewrite 3 [hstart]
      exact ih (by omega) (by omega) h
    · rw [if_neg hline, if_neg hline, checkInt64_of_lt (by omega) (by omega), hnext]
      have hcharacter := framebufferCharacter_paints S hsvga hscale hx₀
        (by unfold Spacious; omega) hy₀ (by unfold Spacious; omega) character h
      exact (ih (by omega) (by omega) hcharacter).congr fun px py => by
        simp only [List.exists_mem_cons_iff, or_assoc]

/-- The pixels that become the colour are those of the text: under the set dots of each character,
in the cell of its line and its place in the line. Nothing overflows where the text begins on the
screen or right of it or below. -/
theorem framebufferText_paints (S : Screen st) (hsvga : FillsAlike svga) (hscale : 0 < scale.toNat)
    (hscale' : scale.toNat ≤ 32) (hx : 0 ≤ x) (hx' : x < 2 ^ 60) (hy : 0 ≤ y) (hy' : y < 2 ^ 60)
    {text : List UInt8} (hlength : text.length < 2 ^ 53) :
    ∃ st', (framebufferText (framebufferFillRect svga) Fonts.absent st x y (some text) color
        scale).frame = some st' ∧ Paints (InText text scale.toNat x y) color st st' := by
  have hguard : ¬((!st.initialized) = true ∨ scale = 0 ∨ scale > 32) := by
    rintro (hready | rfl | hlarge)
    · simp [S.initialized] at hready
    · exact absurd hscale (by decide)
    · exact absurd (UInt32.lt_iff_toNat_lt.mp hlarge) (Nat.not_lt.mpr hscale')
  have hstart : TextPaints (fun _ _ => False) color st ⟨some st, []⟩ := ⟨st, rfl, .none st color⟩
  have hwalk := textFrom_paints S hsvga hscale' hx hx' hy hy' text
    (show 0 + text.length < 2 ^ 53 by omega) (show 0 + text.length < 2 ^ 53 by omega) hstart
  simp only [Nat.cast_zero, zero_mul, add_zero] at hwalk
  obtain ⟨st', hst', P⟩ := hwalk
  refine ⟨st', ?_, P.congr fun px py _ _ => ?_⟩
  · unfold framebufferText
    dsimp only [Fonts.absent]
    rw [if_neg hguard]
    exact hst'
  · rw [false_or]
    constructor
    · rintro ⟨row, column, letters, character, hletters, hcharacter, hglyph⟩
      exact ⟨(row, column, character), mem_placements_iff.mpr ⟨letters, hletters, hcharacter⟩,
        hglyph⟩
    · rintro ⟨⟨row, column, character⟩, hp, hglyph⟩
      obtain ⟨letters, hletters, hcharacter⟩ := mem_placements_iff.mp hp
      exact ⟨row, column, letters, character, hletters, hcharacter, hglyph⟩

end Drawing

/-- A letter above a byte that the font has no glyph for. -/
theorem framebufferText_paints_smallScreen :
    ∃ st', (framebufferText (framebufferFillRect Svga.absent) Fonts.absent smallScreen 3 0
        (some [65, 10, 200]) 5 1).frame = some st' ∧
      Paints (InText [65, 10, 200] (1 : UInt32).toNat 3 0) 5 smallScreen st' :=
  framebufferText_paints smallScreen_screen fillsAlike_absent (by decide) (by decide) (by decide)
    (by decide) (by decide) (by decide) (by decide)

end JsOs.DrawnText

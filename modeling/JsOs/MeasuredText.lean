import JsOs.FramebufferPainting
import JsOs.TextLines
import JsOs.TextModel

/-!
# Measured text

Every rectangle of a drawn text lies in the cell of its character, and the cells lie in the box that
`framebuffer_measure_text` returns, for every text that fits into half of the address space.
-/

namespace JsOs.MeasuredText

open CountedLoops MachineWords FramebufferModel FramebufferPainting ConsoleFont ConsoleModel TextLines
open TextModel

/-- The rectangle lies in the box with the corner `x` and `y`. -/
def Inside (r : Rect) (x y width height : ℤ) : Prop :=
  x ≤ r.x ∧ r.x + r.width ≤ x + width ∧ y ≤ r.y ∧ r.y + r.height ≤ y + height

/-- All rectangles that were filled do. -/
def FilledInside (d : TextDrawing) (x y width height : ℤ) : Prop :=
  ∀ r ∈ d.filled, Inside r x y width height

/-- The `a`-th of `b` steps of length `n`. -/
theorem step_bounds {a b : ℕ} (h : a < b) {n : ℤ} (hn : 0 ≤ n) : 0 ≤ a * n ∧ a * n + n ≤ b * n := by
  have hsucc : ((a : ℤ) + 1) * n ≤ b * n := Int.mul_le_mul_of_nonneg_right (by omega) hn
  rw [Int.add_mul, Int.one_mul] at hsucc
  exact ⟨Int.mul_nonneg (Int.natCast_nonneg a) hn, hsucc⟩

section Drawing

variable {fillRect : FramebufferState → ℤ → ℤ → ℤ → ℤ → UInt32 → Option FramebufferState}
variable {d : TextDrawing} {x y originX originY : ℤ} {character : UInt8} {color scale : UInt32}
variable {row column : ℕ} {text : List UInt8} {r : Rect}

theorem mem_characterPixel (hrow : row < 8) (hcolumn : column < 8)
    (hr : r ∈ (characterPixel fillRect x y character color scale row column d).filled) :
    r ∈ d.filled ∨ Inside r x y (8 * scale.toNat) (8 * scale.toNat) := by
  unfold characterPixel at hr
  split_ifs at hr
  · split at hr
    · rename_i st left top hframe hleft htop
      rcases List.mem_append.mp hr with hold | hnew
      · exact Or.inl hold
      · right
        obtain rfl := List.mem_singleton.mp hnew
        obtain ⟨hleft', hright⟩ := step_bounds hcolumn (Int.natCast_nonneg scale.toNat)
        obtain ⟨htop', hbottom⟩ := step_bounds hrow (Int.natCast_nonneg scale.toNat)
        unfold Inside
        rw [checkInt64_some hleft, checkInt64_some htop]
        dsimp only
        omega
    · exact Or.inl hr
  · exact Or.inl hr

/-- A character is drawn in its cell. -/
theorem mem_framebufferCharacter
    (hr : r ∈ (framebufferCharacter fillRect x y character color scale d).filled) :
    r ∈ d.filled ∨ Inside r x y (8 * scale.toNat) (8 * scale.toNat) := by
  have hcell : ∀ r ∈ (framebufferCharacter fillRect x y character color scale d).filled,
      r ∈ d.filled ∨ Inside r x y (8 * scale.toNat) (8 * scale.toNat) := by
    unfold framebufferCharacter
    refine forRange_invariant (fun _ (t : TextDrawing) => ∀ r ∈ t.filled,
      r ∈ d.filled ∨ Inside r x y (8 * scale.toNat) (8 * scale.toNat)) (Nat.zero_le 8)
      (fun r hr => Or.inl hr) fun row t _ hrow ht => ?_
    refine forRange_invariant (fun _ (t : TextDrawing) => ∀ r ∈ t.filled,
      r ∈ d.filled ∨ Inside r x y (8 * scale.toNat) (8 * scale.toNat)) (Nat.zero_le 8)
      ht fun column t' _ hcolumn ht' r hr => ?_
    rcases mem_characterPixel hrow hcolumn hr with hold | hnew
    · exact ht' r hold
    · exact Or.inr hnew
  exact hcell r hr

/-- What is drawn from a row and a column on lies in the cells of the letters from there on. -/
theorem mem_textFrom (hr : r ∈ (textFrom fillRect originX color scale text
      (originX + column * (8 * scale.toNat)) (originY + row * (8 * scale.toNat)) d).filled) :
    r ∈ d.filled ∨ ∃ p ∈ placements 10 text row column,
      Inside r (originX + p.2.1 * (8 * scale.toNat)) (originY + p.1 * (8 * scale.toNat))
        (8 * scale.toNat) (8 * scale.toNat) := by
  induction text generalizing row column d with
  | nil => exact Or.inl hr
  | cons character text ih =>
    unfold textFrom at hr
    unfold placements
    split_ifs at hr ⊢
    · split at hr
      · rename_i y hy
        have hnext : y = originY + (row + 1 : ℕ) * (8 * scale.toNat) := by
          rw [checkInt64_some hy]
          push_cast
          ring
        rw [hnext] at hr
        exact ih (by simpa using hr)
      · exact Or.inl hr
    · have hcharacter : r ∈ (framebufferCharacter fillRect (originX + column * (8 * scale.toNat))
            (originY + row * (8 * scale.toNat)) character color scale d).filled →
          r ∈ d.filled ∨ ∃ p ∈ (row, column, character) :: placements 10 text row (column + 1),
            Inside r (originX + p.2.1 * (8 * scale.toNat)) (originY + p.1 * (8 * scale.toNat))
              (8 * scale.toNat) (8 * scale.toNat) := by
        intro hr
        exact (mem_framebufferCharacter hr).imp_right fun h => ⟨_, List.mem_cons_self, h⟩
      dsimp only at hr
      split at hr
      · rename_i x hx
        have hnext : x = originX + (column + 1 : ℕ) * (8 * scale.toNat) := by
          rw [checkInt64_some hx]
          push_cast
          ring
        rw [hnext] at hr
        rcases ih hr with hold | ⟨p, hp, hinside⟩
        · exact hcharacter hold
        · exact Or.inr ⟨p, List.mem_cons_of_mem _ hp, hinside⟩
      · exact hcharacter hr

theorem shownCharacter_newline (character : UInt8) :
    (shownCharacter character == 10) = (character == 10) := by
  unfold shownCharacter
  split_ifs with h
  · have hne : character ≠ 10 := by
      rintro rfl
      exact absurd h (by decide)
    rw [beq_eq_false_iff_ne.mpr hne]
    decide
  · rfl

theorem shownCharacter_shown (character : UInt8) :
    shownCharacter (shownCharacter character) = shownCharacter character := by
  unfold shownCharacter
  split_ifs with h h'
  · exact absurd h' (by decide)
  · rfl
  · rfl

theorem framebufferCharacter_shown (x y : ℤ) (character : UInt8) (d : TextDrawing) :
    framebufferCharacter fillRect x y (shownCharacter character) color scale d =
      framebufferCharacter fillRect x y character color scale d := by
  unfold framebufferCharacter
  rw [shownCharacter_shown]

/-- A byte outside ASCII is drawn as a question mark. -/
theorem textFrom_shown (x y : ℤ) (d : TextDrawing) :
    textFrom fillRect originX color scale (text.map shownCharacter) x y d =
      textFrom fillRect originX color scale text x y d := by
  induction text generalizing x y d with
  | nil => rfl
  | cons character text ih =>
    simp only [List.map_cons, textFrom, shownCharacter_newline, framebufferCharacter_shown, ih]

end Drawing

section Measuring

variable {text line : List UInt8} {rest : List (List UInt8)} {current maximum lines : ℕ}

/-- The loop of `framebuffer_measure_text` while its counters do not wrap. -/
theorem measureFrom_eq (hl : text.splitOn 10 = line :: rest) (hline : current + line.length < 2 ^ 64)
    (hrest : longest rest < 2 ^ 64) (hlines : lines + rest.length < 2 ^ 64) :
    measureFrom text current maximum lines =
      (max maximum (max (current + line.length) (longest rest)), lines + rest.length) := by
  induction text generalizing line rest current maximum lines with
  | nil =>
    obtain ⟨rfl, rfl⟩ : [] = line ∧ [] = rest := by simpa using hl
    unfold measureFrom
    rw [← max_def_lt, Prod.mk.injEq]
    unfold longest
    simp only [List.length_nil]
    omega
  | cons character text ih =>
    unfold measureFrom
    obtain ⟨line', rest', hl'⟩ := List.exists_cons_of_ne_nil (List.splitOn_ne_nil 10 text)
    by_cases hc : character = 10
    · subst hc
      rw [splitOn_cons_self, List.cons.injEq] at hl
      obtain ⟨rfl, rfl⟩ := hl
      rw [hl'] at hrest hlines ⊢
      unfold longest at hrest ⊢
      simp only [List.length_cons] at hlines ⊢
      rw [if_pos (beq_self_eq_true _), ← max_def_lt, add64_eq (by omega),
        ih hl' (by omega) (by omega) (by omega), Prod.mk.injEq]
      simp only [List.length_nil]
      omega
    · rw [splitOn_cons_of_ne hc hl', List.cons.injEq] at hl
      obtain ⟨rfl, rfl⟩ := hl
      rw [List.length_cons] at hline ⊢
      rw [if_neg (by simpa using hc), add64_eq (by omega), ih hl' (by omega) hrest hlines]
      rw [Nat.add_assoc, Nat.add_comm 1]

/-- A byte outside ASCII is measured as a question mark. -/
theorem measureFrom_shown (text : List UInt8) (current maximum lines : ℕ) :
    measureFrom (text.map shownCharacter) current maximum lines =
      measureFrom text current maximum lines := by
  induction text generalizing current maximum lines with
  | nil => rfl
  | cons character text ih =>
    simp only [List.map_cons, measureFrom, shownCharacter_newline, ih]

theorem longest_cons (line : List UInt8) (rest : List (List UInt8)) :
    longest (line :: rest) = max line.length (longest rest) := rfl

/-- What `framebuffer_measure_text` returns on the bitmap path. -/
theorem framebufferMeasureText_eq {fonts : Fonts} {scale : UInt32}
    (hmeasure : fonts.measureText (some text) (scale * 8) = none)
    (hlength : text.length + 1 < 2 ^ 64) :
    framebufferMeasureText fonts (some text) scale =
      (mul64 (mul64 (longest (text.splitOn 10)) 8) scale.toNat,
        mul64 (mul64 (text.splitOn 10).length 8) scale.toNat) := by
  have hbound := length_add_longest_le 10 text
  obtain ⟨line, rest, hl⟩ := List.exists_cons_of_ne_nil (List.splitOn_ne_nil 10 text)
  rw [hl, longest_cons, List.length_cons] at hbound
  have hloop : measureFrom text 0 0 1 = (longest (line :: rest), (line :: rest).length) := by
    rw [measureFrom_eq hl (by omega) (by omega) (by omega), longest_cons, List.length_cons,
      Prod.mk.injEq]
    omega
  unfold framebufferMeasureText
  rw [hmeasure, Option.getD_none, Option.getD_some, hloop, hl]

theorem mul64_eight {n scale : ℕ} (hscale : 0 < scale) (h : n * (8 * scale) < 2 ^ 64) :
    mul64 (mul64 n 8) scale = n * (8 * scale) := by
  have hle : n * 8 ≤ n * (8 * scale) := Nat.mul_le_mul_left n (Nat.le_mul_of_pos_right 8 hscale)
  rw [mul64_eq (hle.trans_lt h), mul64_eq (by rwa [Nat.mul_assoc]), Nat.mul_assoc]

end Measuring

section Bounds

variable {fillRect : FramebufferState → ℤ → ℤ → ℤ → ℤ → UInt32 → Option FramebufferState}
variable {st : FramebufferState} {fonts : Fonts} {text : List UInt8} {color scale : UInt32}

/-- The cell of a place lies in the box of the text. -/
theorem inside_of_place {r : Rect} {x y : ℤ} {n row column width height : ℕ} (hrow : row < height)
    (hcolumn : column < width) (h : Inside r (x + column * (8 * n)) (y + row * (8 * n)) (8 * n) (8 * n)) :
    Inside r x y (width * (8 * n) : ℕ) (height * (8 * n) : ℕ) := by
  have hn : (0 : ℤ) ≤ 8 * n := by omega
  obtain ⟨hleft, hright⟩ := step_bounds hcolumn hn
  obtain ⟨htop, hbottom⟩ := step_bounds hrow hn
  unfold Inside at h ⊢
  push_cast
  omega

/-- On the bitmap path each rectangle lies in the cell of a letter. -/
theorem mem_framebufferText {x y : ℤ} {r : Rect}
    (hdraw : fonts.drawText st x y text color (scale * 8) = none)
    (hr : r ∈ (framebufferText fillRect fonts st x y (some text) color scale).filled) :
    0 < scale.toNat ∧ scale.toNat ≤ 32 ∧ ∃ p ∈ placements 10 text 0 0,
      Inside r (x + p.2.1 * (8 * scale.toNat)) (y + p.1 * (8 * scale.toNat)) (8 * scale.toNat)
        (8 * scale.toNat) := by
  unfold framebufferText at hr
  dsimp only at hr
  split_ifs at hr with hguard
  · cases hr
  · rw [hdraw] at hr
    obtain ⟨-, hguard⟩ := not_or.mp hguard
    obtain ⟨hzero, hlarge⟩ := not_or.mp hguard
    refine ⟨Nat.pos_of_ne_zero fun h => hzero (UInt32.toNat_inj.mp h),
      UInt32.le_iff_toNat_le.mp (UInt32.not_lt.mp hlarge), ?_⟩
    have hplace := @mem_textFrom fillRect ⟨some st, []⟩ x y color scale 0 0 text r
      (by simpa using hr)
    exact hplace.resolve_left fun hnone => by cases hnone

/-- The box of a text in which there is a letter does not wrap. -/
theorem box_lt {p : ℕ × ℕ × UInt8} (hp : p ∈ placements 10 text 0 0)
    (hlength : text.length + 1 ≤ 2 ^ 56) (hscale : scale.toNat ≤ 32) :
    longest (text.splitOn 10) * (8 * scale.toNat) < 2 ^ 64 ∧
      (text.splitOn 10).length * (8 * scale.toNat) < 2 ^ 64 := by
  have hbound := length_add_longest_le 10 text
  obtain ⟨hrow, hcolumn⟩ := lt_of_mem_placements hp
  have hwide (n : ℕ) (hn : n < 2 ^ 56) : n * (8 * scale.toNat) < 2 ^ 64 := calc
    n * (8 * scale.toNat) ≤ n * 256 := Nat.mul_le_mul_left n (by omega)
    _ < 2 ^ 64 := by omega
  exact ⟨hwide _ (by omega), hwide _ (by omega)⟩

/-- On the bitmap path every rectangle of a drawn text lies in the box that the same text is
measured with. Both take the text apart into the same lines: the box has the width of the longest and
the height of all of them, and each rectangle lies in the cell of a letter, in its line and column.
And to both a byte outside ASCII is a question mark. -/
theorem framebufferText_inside_measured (x y : ℤ)
    (hdraw : ∀ text, fonts.drawText st x y text color (scale * 8) = none)
    (hmeasure : ∀ text, fonts.measureText (some text) (scale * 8) = none)
    (hlength : text.length + 1 ≤ 2 ^ 56) :
    FilledInside (framebufferText fillRect fonts st x y (some text) color scale) x y
        (framebufferMeasureText fonts (some text) scale).1
        (framebufferMeasureText fonts (some text) scale).2 ∧
      framebufferMeasureText fonts (some text) scale =
        (mul64 (mul64 (longest (text.splitOn 10)) 8) scale.toNat,
          mul64 (mul64 (text.splitOn 10).length 8) scale.toNat) ∧
      (∀ r ∈ (framebufferText fillRect fonts st x y (some text) color scale).filled,
        ∃ (row column : ℕ) (letters : List UInt8), (text.splitOn 10)[row]? = some letters ∧
          column < letters.length ∧
          Inside r (x + column * (8 * scale.toNat)) (y + row * (8 * scale.toNat))
            (8 * scale.toNat) (8 * scale.toNat)) ∧
      framebufferText fillRect fonts st x y (some (text.map shownCharacter)) color scale =
        framebufferText fillRect fonts st x y (some text) color scale ∧
      framebufferMeasureText fonts (some (text.map shownCharacter)) scale =
        framebufferMeasureText fonts (some text) scale := by
  have hmeasured := framebufferMeasureText_eq (hmeasure text) (hlength.trans_lt (by decide))
  refine ⟨fun r hr => ?_, hmeasured, fun r hr => ?_, ?_, ?_⟩
  · obtain ⟨hpos, hscale, ⟨row, column, character⟩, hp, hinside⟩ :=
      mem_framebufferText (hdraw text) hr
    obtain ⟨hwidth, hheight⟩ := box_lt hp hlength hscale
    obtain ⟨hrow, hcolumn⟩ := lt_of_mem_placements hp
    rw [hmeasured, mul64_eight hpos hwidth, mul64_eight hpos hheight]
    exact inside_of_place hrow hcolumn hinside
  · obtain ⟨-, -, ⟨row, column, character⟩, hp, hinside⟩ := mem_framebufferText (hdraw text) hr
    obtain ⟨letters, hletters, hcharacter⟩ := mem_placements_iff.mp hp
    exact ⟨row, column, letters, hletters, (List.getElem?_eq_some_iff.mp hcharacter).1, hinside⟩
  · simp only [framebufferText, hdraw, textFrom_shown]
  · simp only [framebufferMeasureText, hmeasure, Option.getD_some, measureFrom_shown]

/-- A newline at both ends and a byte outside ASCII between two letters. -/
def sampleText : List UInt8 := [10, 65, 200, 66, 10]

theorem framebufferText_inside_measured_sampleText :
    let d := framebufferText (framebufferFillRect Svga.absent) Fonts.absent smallScreen (-3) 5
      (some sampleText) 7 2
    d.filled ≠ [] ∧
    FilledInside d (-3) 5 (framebufferMeasureText Fonts.absent (some sampleText) 2).1
      (framebufferMeasureText Fonts.absent (some sampleText) 2).2 ∧
    framebufferText (framebufferFillRect Svga.absent) Fonts.absent smallScreen (-3) 5
      (some [10, 65, 63, 66, 10]) 7 2 = d := by
  obtain ⟨hinside, -, -, hshown, -⟩ := @framebufferText_inside_measured
    (framebufferFillRect Svga.absent) smallScreen Fonts.absent sampleText 7 2 (-3) 5
    (fun _ => rfl) (fun _ => rfl) (by decide)
  exact ⟨by decide +kernel, hinside, hshown⟩

end Bounds

section Defined

variable {fillRect : FramebufferState → ℤ → ℤ → ℤ → ℤ → UInt32 → Option FramebufferState}
variable {d : TextDrawing} {x y originX : ℤ} {character : UInt8} {color scale : UInt32}
variable {row column : ℕ} {text : List UInt8}

/-- Positions that an `int64_t` holds with a character to spare. -/
def Spacious (v : ℤ) (n : ℕ) : Prop := -2 ^ 62 ≤ v ∧ v + 256 * n < 2 ^ 62

theorem checkInt64_of_spacious {v step : ℤ} {n : ℕ} (h : Spacious v n) (h0 : 0 ≤ step)
    (h256 : step ≤ 256) : checkInt64 (v + step) = some (v + step) := by
  unfold Spacious at h
  exact checkInt64_of_lt (by omega) (by omega)

theorem characterPixel_defined
    (hfill : ∀ st x y width height color, (fillRect st x y width height color).isSome)
    (hscale : scale.toNat ≤ 32) (hx : Spacious x 0) (hy : Spacious y 0) (hrow : row < 8)
    (hcolumn : column < 8) (hd : d.frame.isSome) :
    (characterPixel fillRect x y character color scale row column d).frame.isSome := by
  obtain ⟨hleft, hright⟩ := step_bounds hcolumn (Int.natCast_nonneg scale.toNat)
  obtain ⟨htop, hbottom⟩ := step_bounds hrow (Int.natCast_nonneg scale.toNat)
  obtain ⟨st, hst⟩ := Option.isSome_iff_exists.mp hd
  unfold characterPixel
  rw [hst, checkInt64_of_spacious hx hleft (by omega), checkInt64_of_spacious hy htop (by omega)]
  split_ifs
  · exact hfill ..
  · exact hd

theorem framebufferCharacter_defined
    (hfill : ∀ st x y width height color, (fillRect st x y width height color).isSome)
    (hscale : scale.toNat ≤ 32) (hx : Spacious x 0) (hy : Spacious y 0) (hd : d.frame.isSome) :
    (framebufferCharacter fillRect x y character color scale d).frame.isSome := by
  unfold framebufferCharacter
  refine forRange_invariant (fun _ (t : TextDrawing) => t.frame.isSome) (Nat.zero_le 8) hd
    fun row t _ hrow ht => ?_
  exact forRange_invariant (fun _ (t : TextDrawing) => t.frame.isSome) (Nat.zero_le 8) ht
    fun column t' _ hcolumn ht' => characterPixel_defined hfill hscale hx hy hrow hcolumn ht'

/-- The loop of `framebuffer_text` does not overflow of itself. -/
theorem textFrom_defined
    (hfill : ∀ st x y width height color, (fillRect st x y width height color).isSome)
    (hscale : scale.toNat ≤ 32) (horigin : Spacious originX text.length)
    (hx : Spacious x text.length) (hy : Spacious y text.length) (hd : d.frame.isSome) :
    (textFrom fillRect originX color scale text x y d).frame.isSome := by
  induction text generalizing x y d with
  | nil => exact hd
  | cons character text ih =>
    unfold textFrom
    rw [checkInt64_of_spacious hx (by omega) (by omega),
      checkInt64_of_spacious hy (by omega) (by omega)]
    unfold Spacious at horigin hx hy ih
    rw [List.length_cons] at horigin hx hy
    split_ifs
    · exact ih (by omega) (by omega) (by omega) hd
    · exact ih (by omega) (by omega) (by omega) (framebufferCharacter_defined hfill hscale
        (by unfold Spacious; omega) (by unfold Spacious; omega) hd)

/-- A text of fewer than `2 ^ 53` bytes is drawn to its end. -/
theorem framebufferText_defined {fonts : Fonts} {st : FramebufferState}
    (hfill : ∀ st x y width height color, (fillRect st x y width height color).isSome)
    (hx : |x| < 2 ^ 60) (hy : |y| < 2 ^ 60) (hlength : text.length < 2 ^ 53) :
    (framebufferText fillRect fonts st x y (some text) color scale).frame.isSome := by
  rw [abs_lt] at hx hy
  unfold framebufferText
  dsimp only
  split_ifs with hguard
  · rfl
  · split
    · rfl
    · have hscale : scale.toNat ≤ 32 :=
        UInt32.le_iff_toNat_le.mp (UInt32.not_lt.mp fun h => hguard (Or.inr (Or.inr h)))
      exact textFrom_defined hfill hscale (by unfold Spacious; omega) (by unfold Spacious; omega)
        (by unfold Spacious; omega) rfl

end Defined

end JsOs.MeasuredText

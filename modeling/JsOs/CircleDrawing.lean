import JsOs.DigitalCircles
import JsOs.LineDrawing

/-!
# `framebuffer_circle`

Its loop is the walk of a digital circle from row to row. Around each point of the walk
`circle_points` plots the eight symmetric points, or the four spans between them.
-/

namespace JsOs.CircleDrawing

open MachineWords FramebufferModel FramebufferPainting DrawingModel PointPlotting LineDrawing
open DigitalLines DigitalCircles

section Points

variable {cx cy x y r : ℤ}

theorem linePoint_horizontal {x0 x1 y : ℤ} (h : x0 ≤ x1) {n : ℕ} (hn : n ≤ lineSteps x0 y x1 y) :
    linePoint x0 y x1 y n = (x0 + n, y) := by
  obtain ⟨-, hlong, -⟩ := path_near (abs_nonneg (x1 - x0)) (abs_nonneg (y - y)) n
  obtain ⟨hx, hy⟩ := path_box hn
  have hflat : |y - y| = 0 := by rw [sub_self, abs_zero]
  have hfirst := hlong (hflat ▸ abs_nonneg _)
  have hsecond : (path |x1 - x0| |y - y| n).2 = 0 := le_antisymm (hflat ▸ hy.2) hy.1
  rw [hfirst, abs_of_nonneg (sub_nonneg.mpr h)] at hx
  unfold linePoint
  rw [hfirst, hsecond]
  refine Prod.ext ?_ ?_
  · unfold heading
    split_ifs <;> omega
  · exact add_eq_left.mpr (mul_zero _)

/-- A line along a row is the span between its ends. -/
theorem mem_linePoints_horizontal {x0 x1 y : ℤ} (h : x0 ≤ x1) {p : ℤ × ℤ} :
    p ∈ linePoints x0 y x1 y ↔ p.2 = y ∧ x0 ≤ p.1 ∧ p.1 ≤ x1 := by
  have hsteps : (lineSteps x0 y x1 y : ℤ) = x1 - x0 := by
    unfold lineSteps
    rw [sub_self, abs_zero, abs_of_nonneg (sub_nonneg.mpr h), max_eq_left (sub_nonneg.mpr h)]
    exact Int.toNat_of_nonneg (sub_nonneg.mpr h)
  unfold linePoints
  simp only [List.mem_map, List.mem_range, Nat.lt_succ_iff]
  constructor
  · rintro ⟨n, hn, rfl⟩
    rw [linePoint_horizontal h hn]
    exact ⟨rfl, by omega, by dsimp only; omega⟩
  · rintro ⟨hy, hlo, hhi⟩
    refine ⟨(p.1 - x0).toNat, by omega, ?_⟩
    rw [linePoint_horizontal h (by omega)]
    exact Prod.ext (by dsimp only; omega) hy.symm

/-- A centre and a radius for which nothing overflows. -/
structure CircleFits (cx cy r : ℤ) : Prop where
  center_x : |cx| + r < 2 ^ 62
  center_y : |cy| + r < 2 ^ 62
  radius_le : r ≤ 2 ^ 60

variable {d : Drawing} {color : UInt32}

theorem circleSpan_eq (F : CircleFits cx cy r) (hx : 0 ≤ x) (hxr : x ≤ r) (hyr : |y| ≤ r)
    (d : Drawing) (color : UInt32) : ∃ ps, circleSpan d cx cy x y color = some (plotAll d ps color) ∧
      ∀ a b, (cx + a, cy + b) ∈ ps ↔ b = y ∧ |a| ≤ x := by
  have hcx := F.center_x
  have hcy := F.center_y
  have hr := F.radius_le
  have hcx' := abs_le.mp (le_refl |cx|)
  have hcy' := abs_le.mp (le_refl |cy|)
  have hy := abs_le.mp hyr
  have hfits : LineFits (cx - x) (cy + y) (cx + x) (cy + y) := by
    constructor <;> first | rw [abs_lt] | rw [abs_le]
    all_goals omega
  refine ⟨linePoints (cx - x) (cy + y) (cx + x) (cy + y), ?_, fun a b => ?_⟩
  · unfold circleSpan
    simp only [Option.bind_eq_bind]
    rw [checkInt64_of_lt (v := cx - x) (by omega) (by omega), Option.bind_some,
      checkInt64_of_lt (v := cy + y) (by omega) (by omega), Option.bind_some,
      checkInt64_of_lt (v := cx + x) (by omega) (by omega), Option.bind_some, Option.bind_some]
    exact framebufferLine_eq hfits d color
  · rw [mem_linePoints_horizontal (by omega), abs_le]
    dsimp only
    omega

theorem circlePixel_eq (F : CircleFits cx cy r) (hxr : |x| ≤ r) (hyr : |y| ≤ r)
    (d : Drawing) (color : UInt32) :
    circlePixel d cx cy x y color = some (plotAll d [(cx + x, cy + y)] color) := by
  have hcx := F.center_x
  have hcy := F.center_y
  have hcx' := abs_le.mp (le_refl |cx|)
  have hcy' := abs_le.mp (le_refl |cy|)
  have hx := abs_le.mp hxr
  have hy := abs_le.mp hyr
  unfold circlePixel
  rw [checkInt64_of_lt (v := cx + x) (by omega) (by omega),
    checkInt64_of_lt (v := cy + y) (by omega) (by omega)]
  rfl

/-- What `circle_points` plots around `(m, n)`: the symmetric points, or the spans. -/
def Stroke (filled : Bool) (m n a b : ℤ) : Prop :=
  if filled then Spanned m n a b else |a| = m ∧ |b| = n ∨ |a| = n ∧ |b| = m

theorem circlePoints_eq (F : CircleFits cx cy r) (hy : 0 ≤ y) (hyx : y ≤ x) (hxr : x ≤ r)
    (d : Drawing) (color : UInt32) (filled : Bool) :
    ∃ ps, circlePoints d cx cy x y color filled = some (plotAll d ps color) ∧
      ∀ a b, (cx + a, cy + b) ∈ ps ↔ Stroke filled x y a b := by
  have hx : 0 ≤ x := hy.trans hyx
  have hyr : y ≤ r := hyx.trans hxr
  have habsx : |x| ≤ r := (abs_of_nonneg hx).trans_le hxr
  have habsy : |y| ≤ r := (abs_of_nonneg hy).trans_le hyr
  have hnegx : |-x| ≤ r := (abs_neg x).trans_le habsx
  have hnegy : |-y| ≤ r := (abs_neg y).trans_le habsy
  unfold circlePoints Stroke
  cases filled with
  | true =>
    obtain ⟨ps₁, h₁, hmem₁⟩ := circleSpan_eq F hx hxr habsy d color
    obtain ⟨ps₂, h₂, hmem₂⟩ := circleSpan_eq F hx hxr hnegy (plotAll d ps₁ color) color
    obtain ⟨ps₃, h₃, hmem₃⟩ := circleSpan_eq F hy hyr habsx
      (plotAll (plotAll d ps₁ color) ps₂ color) color
    obtain ⟨ps₄, h₄, hmem₄⟩ := circleSpan_eq F hy hyr hnegx
      (plotAll (plotAll (plotAll d ps₁ color) ps₂ color) ps₃ color) color
    refine ⟨ps₁ ++ ps₂ ++ ps₃ ++ ps₄, ?_, fun a b => ?_⟩
    · simp only [if_true, h₁, h₂, h₃, h₄, Option.bind_eq_bind, Option.bind_some, plotAll_append]
    · simp only [List.mem_append, hmem₁, hmem₂, hmem₃, hmem₄, if_true, Spanned, abs_eq hx,
        abs_eq hy, or_and_right, or_assoc]
  | false =>
    refine ⟨[(cx + x, cy + y), (cx + -x, cy + y), (cx + x, cy + -y), (cx + -x, cy + -y),
      (cx + y, cy + x), (cx + -y, cy + x), (cx + y, cy + -x), (cx + -y, cy + -x)], ?_,
      fun a b => ?_⟩
    · simp only [Bool.false_eq_true, if_false, circlePixel_eq F habsx habsy,
        circlePixel_eq F hnegx habsy, circlePixel_eq F habsx hnegy, circlePixel_eq F hnegx hnegy,
        circlePixel_eq F habsy habsx, circlePixel_eq F hnegy habsx, circlePixel_eq F habsy hnegx,
        circlePixel_eq F hnegy hnegx, Option.bind_eq_bind, Option.bind_some, ← plotAll_append]
      rfl
    · simp only [List.mem_cons, List.not_mem_nil, Prod.mk.injEq, Bool.false_eq_true, if_false,
        abs_eq hx, abs_eq hy, add_right_inj, or_false, and_or_left, or_and_right, or_assoc]

end Points

section Loop

variable {cx cy r : ℤ} {d : Drawing} {color : UInt32} {filled : Bool}

/-- `circle_points` and the increments keep to the walk. -/
theorem circleAdvance_eq {x y : ℤ} (W : Walk r x y) (hyx : y ≤ x) (hr : r ≤ 2 ^ 60) :
    ∃ x', circleAdvance ⟨x, y, decision r x y⟩ = some ⟨x', y + 1, decision r x' (y + 1)⟩ ∧
      x' ≤ x ∧ Walk r x' (y + 1) := by
  obtain ⟨hlo, hhi⟩ := (W.onArc hyx).decision_bounds
  have hy := W.row_nonneg
  have hx := W.le_radius
  unfold circleAdvance
  simp only [Option.bind_eq_bind, checkInt64_of_lt (show -2 ^ 63 ≤ y + 1 by omega) (by omega),
    Option.bind_some]
  by_cases heast : decision r x y < 0
  · refine ⟨x, ?_, le_refl x, W.east hyx heast⟩
    rw [if_pos heast, checkInt64_of_lt (v := 2 * (y + 1)) (by omega) (by omega), Option.bind_some,
      checkInt64_of_lt (by omega) (by omega), Option.bind_some,
      checkInt64_of_lt (by omega) (by omega), Option.bind_some, decision_east]
  · refine ⟨x - 1, ?_, by omega, W.southeast hyx (not_lt.mp heast)⟩
    rw [if_neg heast, checkInt64_of_lt (v := x - 1) (by omega) (by omega), Option.bind_some,
      checkInt64_of_lt (v := y + 1 - (x - 1)) (by omega) (by omega), Option.bind_some,
      checkInt64_of_lt (v := 2 * (y + 1 - (x - 1))) (by omega) (by omega), Option.bind_some,
      checkInt64_of_lt (by omega) (by omega), Option.bind_some,
      checkInt64_of_lt (by omega) (by omega), Option.bind_some, decision_southeast]

/-- What a circle plots in the rows from `y` on. -/
def Strokes (r y : ℤ) (filled : Bool) (a b : ℤ) : Prop :=
  ∃ m n, y ≤ n ∧ n ≤ m ∧ OnArc r m n ∧ Stroke filled m n a b

/-- The rows of a walk are the first one and the others. -/
theorem strokes_iff {x y : ℤ} (W : Walk r x y) (hyx : y ≤ x) (a b : ℤ) :
    Strokes r y filled a b ↔ Stroke filled x y a b ∨ Strokes r (y + 1) filled a b := by
  have hon := W.onArc hyx
  have hy := W.row_nonneg
  constructor
  · rintro ⟨m, n, hyn, hnm, hon', hstroke⟩
    rcases hyn.eq_or_lt with rfl | hlt
    · rw [hon'.unique hon (by omega) (by omega)] at hstroke
      exact Or.inl hstroke
    · exact Or.inr ⟨m, n, hlt, hnm, hon', hstroke⟩
  · rintro (hstroke | ⟨m, n, hyn, hnm, hon', hstroke⟩)
    · exact ⟨x, y, le_refl y, hyx, hon, hstroke⟩
    · exact ⟨m, n, by omega, hnm, hon', hstroke⟩

/-- The loop from row `y` on; the induction is on the fuel, and each round enters a new row. -/
theorem circleFrom_eq (F : CircleFits cx cy r) (fuel : ℕ) {x y : ℤ} (W : Walk r x y)
    (hfuel : x + 1 - y < fuel) (hpos : 0 < fuel) (d : Drawing) (color : UInt32) (filled : Bool) :
    ∃ ps, circleFrom cx cy color filled fuel ⟨x, y, decision r x y⟩ d =
        some (plotAll d ps color) ∧
      ∀ a b, (cx + a, cy + b) ∈ ps ↔ Strokes r y filled a b := by
  induction fuel generalizing x y d with
  | zero => exact absurd hpos (Nat.lt_irrefl 0)
  | succ fuel ih =>
    unfold circleFrom
    by_cases hyx : y ≤ x
    · obtain ⟨ps, hpoints, hmem⟩ :=
        circlePoints_eq F W.row_nonneg hyx W.le_radius d color filled
      obtain ⟨x', hadvance, hle, W'⟩ := circleAdvance_eq W hyx F.radius_le
      obtain ⟨ps', hrest, hmem'⟩ := ih W' (by omega) (by omega) (plotAll d ps color)
      refine ⟨ps ++ ps', ?_, fun a b => ?_⟩
      · rw [if_pos hyx, plotAll_append]
        simp only [hpoints, hadvance, hrest, Option.bind_eq_bind, Option.bind_some]
      · rw [List.mem_append, hmem, hmem', strokes_iff W hyx]
    · refine ⟨[], by rw [if_neg hyx]; rfl, fun a b => ?_⟩
      refine iff_of_false List.not_mem_nil ?_
      rintro ⟨m, n, hyn, hnm, hon, -⟩
      exact W.no_more (not_le.mp hyx) hyn hnm hon

/-- `framebuffer_circle` plots the strokes of the digital circle and returns. -/
theorem framebufferCircle_eq (F : CircleFits cx cy r) (hr : 1 ≤ r) (d : Drawing) (color : UInt32)
    (filled : Bool) : ∃ ps, framebufferCircle d cx cy r color filled = some (plotAll d ps color) ∧
      ∀ a b, (cx + a, cy + b) ∈ ps ↔ Strokes r 0 filled a b := by
  have hle := F.radius_le
  obtain ⟨ps, hloop, hmem⟩ := circleFrom_eq F drawingFuel (walk_start hr)
    (by unfold drawingFuel; push_cast; omega) (by decide) d color filled
  refine ⟨ps, ?_, hmem⟩
  unfold framebufferCircle
  rw [if_neg (by omega), checkInt64_of_lt (by omega) (by omega)]
  rw [decision_start] at hloop
  exact hloop

/-- A circle of radius zero is its centre. -/
theorem framebufferCircle_zero (F : CircleFits cx cy 0) (d : Drawing) (color : UInt32)
    (filled : Bool) : ∃ ps, framebufferCircle d cx cy 0 color filled = some (plotAll d ps color) ∧
      ∀ a b, (cx + a, cy + b) ∈ ps ↔ a = 0 ∧ b = 0 := by
  obtain ⟨ps, hpoints, hmem⟩ := circlePoints_eq F (le_refl 0) (le_refl 0) (le_refl 0) d color filled
  refine ⟨ps, ?_, fun a b => ?_⟩
  · have hloop : framebufferCircle d cx cy 0 color filled =
        (circlePoints d cx cy 0 0 color filled).bind some := rfl
    rw [hloop, hpoints]
    rfl
  · rw [hmem]
    unfold Stroke Spanned
    cases filled <;> simp [and_comm]

end Loop

section Shapes

variable {cx cy r : ℤ} {d : Drawing} {color : UInt32}

theorem circleFits_of_lt (hcx : |cx| < 2 ^ 30) (hcy : |cy| < 2 ^ 30) (hr : r < 2 ^ 30) :
    CircleFits cx cy r := ⟨by omega, by omega, by omega⟩

/-- Points given by their offsets from a centre. -/
theorem mem_of_offsets {ps : List (ℤ × ℤ)} {A : ℤ → ℤ → Prop}
    (h : ∀ a b, (cx + a, cy + b) ∈ ps ↔ A a b) (px py : ℤ) :
    (px, py) ∈ ps ↔ A (px - cx) (py - cy) := by
  rw [← h, add_sub_cancel, add_sub_cancel]

/-- In the rows and columns of the octant the outline is the arc. -/
theorem strokes_outline_iff (a b : ℤ) :
    Strokes r 0 false a b ↔ OnArc r (max |a| |b|) (min |a| |b|) := by
  have ha := abs_nonneg a
  have hb := abs_nonneg b
  constructor
  · rintro ⟨m, n, -, hnm, hon, ⟨rfl, rfl⟩ | ⟨rfl, rfl⟩⟩
    · rwa [max_eq_left hnm, min_eq_right hnm]
    · rwa [max_eq_right hnm, min_eq_left hnm]
  · intro hon
    refine ⟨_, _, le_min ha hb, min_le_max, hon, ?_⟩
    rcases le_total |a| |b| with hab | hab
    · rw [max_eq_right hab, min_eq_left hab]
      exact Or.inr ⟨rfl, rfl⟩
    · rw [max_eq_left hab, min_eq_right hab]
      exact Or.inl ⟨rfl, rfl⟩

/-- The outline of a circle: the loop ends, and the offsets it plots are the points that are
nearest to the circle on their main axis. -/
theorem framebufferCircle_outline (S : Screen d.frame) (hcx : |cx| < 2 ^ 30) (hcy : |cy| < 2 ^ 30)
    (hr : 1 ≤ r) (hr' : r < 2 ^ 30) (color : UInt32) :
    ∃ points, framebufferCircle d cx cy r color false = some (plotAll d points color) ∧
      (∀ a b, (cx + a, cy + b) ∈ points ↔ OnArc r (max |a| |b|) (min |a| |b|)) ∧
      Paints (fun px py => OnArc r (max |px - cx| |py - cy|) (min |px - cx| |py - cy|)) color
        d.frame (plotAll d points color).frame := by
  obtain ⟨ps, hcircle, hmem⟩ := framebufferCircle_eq (circleFits_of_lt hcx hcy hr') hr d color false
  have hexact (a b : ℤ) : (cx + a, cy + b) ∈ ps ↔ OnArc r (max |a| |b|) (min |a| |b|) :=
    (hmem a b).trans (strokes_outline_iff a b)
  exact ⟨ps, hcircle, hexact, plotAll_paints_of_mem S (mem_of_offsets hexact · ·) color⟩

theorem framebufferCircle_outline_small : ∃ points,
    framebufferCircle ⟨smallScreen, []⟩ 8 8 5 7 false =
      some (plotAll ⟨smallScreen, []⟩ points 7) ∧
    ((8 + -3 : ℤ), (8 + 4 : ℤ)) ∈ points ∧ ((8 + 4 : ℤ), (8 + 4 : ℤ)) ∉ points := by
  obtain ⟨points, hcircle, hmem, -⟩ := framebufferCircle_outline (d := ⟨smallScreen, []⟩)
    smallScreen_screen (show |(8 : ℤ)| < 2 ^ 30 by decide) (show |(8 : ℤ)| < 2 ^ 30 by decide)
    (show 1 ≤ (5 : ℤ) by decide) (by decide) 7
  refine ⟨points, hcircle, (hmem (-3) 4).mpr ?_, fun h => ?_⟩
  · unfold OnArc
    decide
  · have hon := (hmem 4 4).mp h
    unfold OnArc at hon
    revert hon
    decide

/-- A filled circle covers the disc of radius `r` and stays within the one of area `r * r + r`. -/
theorem framebufferCircle_filled (S : Screen d.frame) (hcx : |cx| < 2 ^ 30) (hcy : |cy| < 2 ^ 30)
    (hr : 0 ≤ r) (hr' : r < 2 ^ 30) (color : UInt32) :
    ∃ d', framebufferCircle d cx cy r color true = some d' ∧
      ∀ px py : ℕ, px < d.frame.info.width → py < d.frame.info.height →
        ((px - cx) * (px - cx) + (py - cy) * (py - cy) ≤ r * r → pixel d'.frame px py = color) ∧
        (r * r + r < (px - cx) * (px - cx) + (py - cy) * (py - cy) →
          pixel d'.frame px py = pixel d.frame px py) := by
  have F := circleFits_of_lt hcx hcy hr'
  rcases hr.eq_or_lt with rfl | hpos
  · obtain ⟨ps, hcircle, hmem⟩ := framebufferCircle_zero F d color true
    have P := plotAll_paints_of_mem S (mem_of_offsets hmem · ·) color
    refine ⟨_, hcircle, fun px py hpx hpy => ⟨fun hin => P.inside px py hpx hpy ?_,
      fun hout => P.outside px py hpx hpy fun hin => ?_⟩⟩
    · constructor <;> nlinarith
    · rw [hin.1, hin.2] at hout
      exact absurd hout (by decide)
  · obtain ⟨ps, hcircle, hmem⟩ := framebufferCircle_eq F hpos d color true
    have P := plotAll_paints_of_mem S (mem_of_offsets hmem · ·) color
    refine ⟨_, hcircle, fun px py hpx hpy => ⟨fun hin => P.inside px py hpx hpy ?_,
      fun hout => P.outside px py hpx hpy ?_⟩⟩
    · exact spanned_of_disc hpos hin
    · rintro ⟨m, n, -, -, hon, hspan⟩
      exact absurd (disc_of_spanned hr hon hspan) (not_le.mpr hout)

theorem framebufferCircle_filled_small : ∃ d',
    framebufferCircle ⟨smallScreen, []⟩ 8 8 5 7 true = some d' ∧ pixel d'.frame 5 4 = 7 ∧
      pixel d'.frame 4 4 = pixel smallScreen 4 4 := by
  obtain ⟨d', hcircle, hpixels⟩ := framebufferCircle_filled (d := ⟨smallScreen, []⟩)
    smallScreen_screen (show |(8 : ℤ)| < 2 ^ 30 by decide) (show |(8 : ℤ)| < 2 ^ 30 by decide)
    (show 0 ≤ (5 : ℤ) by decide) (by decide) 7
  exact ⟨d', hcircle, (hpixels 5 4 (by decide) (by decide)).1 (by decide),
    (hpixels 4 4 (by decide) (by decide)).2 (by decide)⟩

end Shapes

end JsOs.CircleDrawing

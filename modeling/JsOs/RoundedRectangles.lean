import JsOs.CircleDrawing

/-!
# `framebuffer_fill_rounded_rect`

Two rectangles and four discs. A disc of radius `r` is `2 r + 1` pixels wide, so where the shorter
side is exactly `2 r` long the discs reach one pixel beyond it.
-/

namespace JsOs.RoundedRectangles

open MachineWords FramebufferModel FramebufferPainting DrawingModel PointPlotting CircleDrawing
open DigitalCircles

variable {svga : Svga} {d : Drawing} {color : UInt32} {x y width height r a b : ℤ}

section Discs

/-- What a filled circle of radius `r` plots. -/
def Disc (r a b : ℤ) : Prop := Strokes r 0 true a b

theorem Disc.abs_le (h : Disc r a b) (hr : 0 ≤ r) : |a| ≤ r ∧ |b| ≤ r := by
  obtain ⟨m, n, -, hnm, hon, hspan⟩ := h
  have hm := hon.le_radius hr
  rcases hspan with ⟨hb, ha⟩ | ⟨hb, ha⟩ <;> omega

/-- The corner of the octant is not on the arc. -/
theorem not_onArc_corner (hr : 1 ≤ r) : ¬OnArc r r r := by
  rintro ⟨h, -⟩
  nlinarith

theorem onArc_end_iff {n : ℤ} : OnArc r r n ↔ n * n < r := by
  unfold OnArc
  constructor
  · rintro ⟨h, -⟩
    linarith
  · intro h
    have hn := mul_self_nonneg n
    constructor <;> linarith

/-- The rows in which a disc is as wide as its radius. -/
theorem disc_widest_iff (hr : 1 ≤ r) (ha : |a| = r) : Disc r a b ↔ b * b < r := by
  constructor
  · rintro ⟨m, n, -, hnm, hon, hspan⟩
    have hm := hon.le_radius (by omega)
    rcases hspan with ⟨hb, ha'⟩ | ⟨hb, ha'⟩
    · obtain rfl : m = r := by omega
      rw [← abs_mul_abs_self b, hb]
      exact onArc_end_iff.mp hon
    · obtain rfl : m = r := by omega
      obtain rfl : n = m := by omega
      exact absurd hon (not_onArc_corner hr)
  · intro h
    rw [← abs_mul_abs_self b] at h
    have hb := abs_nonneg b
    refine ⟨r, |b|, hb, by nlinarith, onArc_end_iff.mpr h, Or.inl ⟨rfl, ha.le⟩⟩

theorem disc_highest_iff (hr : 1 ≤ r) (hb : |b| = r) : Disc r a b ↔ a * a < r := by
  constructor
  · rintro ⟨m, n, hn, hnm, hon, hspan⟩
    have hm := hon.le_radius (by omega)
    obtain rfl : m = r := by rcases hspan with ⟨hb', -⟩ | ⟨hb', -⟩ <;> omega
    rcases hspan with ⟨hb', ha⟩ | ⟨hb', ha⟩
    · obtain rfl : n = m := by omega
      exact absurd hon (not_onArc_corner hr)
    · have hsq := mul_self_le_mul_self (abs_nonneg a) ha
      rw [abs_mul_abs_self] at hsq
      exact hsq.trans_lt (onArc_end_iff.mp hon)
  · intro h
    rw [← abs_mul_abs_self a] at h
    have ha := abs_nonneg a
    refine ⟨r, |a|, ha, by nlinarith, onArc_end_iff.mpr h, Or.inr ⟨hb, le_refl _⟩⟩

theorem circle_paints {cx cy : ℤ} (S : Screen d.frame) (F : CircleFits cx cy r) (hr : 1 ≤ r)
    (color : UInt32) : ∃ d', framebufferCircle d cx cy r color true = some d' ∧
      Paints (fun px py => Disc r (px - cx) (py - cy)) color d.frame d'.frame := by
  obtain ⟨ps, hcircle, hmem⟩ := framebufferCircle_eq F hr d color true
  exact ⟨_, hcircle, plotAll_paints_of_mem S (mem_of_offsets hmem · ·) color⟩

end Discs

section Corners

/-- The centres of the four discs. -/
def IsCenter (x y width height r cx cy : ℤ) : Prop :=
  (cx = x + r ∨ cx = x + width - r - 1) ∧ (cy = y + r ∨ cy = y + height - r - 1)

/-- The pixels that one of the four discs paints. -/
def InDiscs (x y width height r : ℤ) (px py : ℕ) : Prop :=
  ∃ cx cy, IsCenter x y width height r cx cy ∧ Disc r (px - cx) (py - cy)

/-- The pixels beside a rectangle that is `2 r` wide, and those above and below one that is `2 r`
high, in the rows and columns in which a disc is widest. -/
def Spills (x y width height r : ℤ) (px py : ℕ) : Prop :=
  width = 2 * r ∧ ((px : ℤ) = x - 1 ∨ (px : ℤ) = x + width) ∧
      ((py - (y + r)) * (py - (y + r)) < r ∨
        (py - (y + height - r - 1)) * (py - (y + height - r - 1)) < r) ∨
    height = 2 * r ∧ ((py : ℤ) = y - 1 ∨ (py : ℤ) = y + height) ∧
      ((px - (x + r)) * (px - (x + r)) < r ∨
        (px - (x + width - r - 1)) * (px - (x + width - r - 1)) < r)

/-- The discs reach the pixels of `Spills` and no others outside the rectangle. -/
theorem inDiscs_outside_iff (hr : 1 ≤ r) (hwidth : 2 * r ≤ width) (hheight : 2 * r ≤ height)
    {px py : ℕ} : InDiscs x y width height r px py ∧ ¬InRect x y width height px py ↔
      Spills x y width height r px py := by
  unfold InRect
  constructor
  · rintro ⟨⟨cx, cy, ⟨hcx, hcy⟩, hdisc⟩, hout⟩
    obtain ⟨ha, hb⟩ := hdisc.abs_le (by omega)
    rw [abs_le] at ha hb
    by_cases hcolumn : (px : ℤ) < x ∨ x + width ≤ px
    · have hwide : |px - cx| = r := by rw [abs_eq (by omega)]; omega
      have hrow := (disc_widest_iff hr hwide).mp hdisc
      refine Or.inl ⟨by omega, by omega, ?_⟩
      rcases hcy with rfl | rfl
      · exact Or.inl hrow
      · exact Or.inr hrow
    · have hhigh : |py - cy| = r := by rw [abs_eq (by omega)]; omega
      have hrow := (disc_highest_iff hr hhigh).mp hdisc
      refine Or.inr ⟨by omega, by omega, ?_⟩
      rcases hcx with rfl | rfl
      · exact Or.inl hrow
      · exact Or.inr hrow
  · rintro (⟨hw, hpx, hrow⟩ | ⟨hh, hpy, hcolumn⟩)
    · refine ⟨?_, by omega⟩
      obtain ⟨cx, hcx, hwide⟩ : ∃ cx, (cx = x + r ∨ cx = x + width - r - 1) ∧ |px - cx| = r := by
        rcases hpx with hpx | hpx
        · exact ⟨_, Or.inr rfl, by rw [abs_eq (by omega)]; omega⟩
        · exact ⟨_, Or.inl rfl, by rw [abs_eq (by omega)]; omega⟩
      rcases hrow with hrow | hrow
      · exact ⟨cx, _, ⟨hcx, Or.inl rfl⟩, (disc_widest_iff hr hwide).mpr hrow⟩
      · exact ⟨cx, _, ⟨hcx, Or.inr rfl⟩, (disc_widest_iff hr hwide).mpr hrow⟩
    · refine ⟨?_, by omega⟩
      obtain ⟨cy, hcy, hhigh⟩ : ∃ cy, (cy = y + r ∨ cy = y + height - r - 1) ∧ |py - cy| = r := by
        rcases hpy with hpy | hpy
        · exact ⟨_, Or.inr rfl, by rw [abs_eq (by omega)]; omega⟩
        · exact ⟨_, Or.inl rfl, by rw [abs_eq (by omega)]; omega⟩
      rcases hcolumn with hcolumn | hcolumn
      · exact ⟨_, cy, ⟨Or.inl rfl, hcy⟩, (disc_highest_iff hr hhigh).mpr hcolumn⟩
      · exact ⟨_, cy, ⟨Or.inr rfl, hcy⟩, (disc_highest_iff hr hhigh).mpr hcolumn⟩

end Corners

section Shape

/-- The two rectangles of `framebuffer_fill_rounded_rect`. -/
def InCross (x y width height r : ℤ) (px py : ℕ) : Prop :=
  InRect (x + r) y (width - r * 2) height px py ∨ InRect x (y + r) width (height - r * 2) px py

/-- The corner squares of side `r`. -/
def InCorners (x y width height r : ℤ) (px py : ℕ) : Prop :=
  ((px : ℤ) < x + r ∨ x + width - r ≤ px) ∧ ((py : ℤ) < y + r ∨ y + height - r ≤ py)

theorem inCross_iff (hr : 0 ≤ r) {px py : ℕ} : InCross x y width height r px py ↔
    InRect x y width height px py ∧ ¬InCorners x y width height r px py := by
  unfold InCross InRect InCorners
  omega

/-- No call of `framebuffer_fill_rect` overflows. -/
def Clips (info : FramebufferInfo) (x y width height r : ℤ) : Prop :=
  (width = 2 * r ∨ (info.width : ℤ) ≤ x + r ∨ 0 ≤ x + r ∧ 0 ≤ y) ∧
    ((info.width : ℤ) ≤ x ∨ 0 ≤ x ∧ (height = 2 * r ∨ 0 ≤ y + r))

theorem clampedRadius_spec (hwidth : 0 < width) (hheight : 0 < height) (radius : ℤ) :
    0 ≤ clampedRadius width height radius ∧ 2 * clampedRadius width height radius ≤ width ∧
      2 * clampedRadius width height radius ≤ height := by
  unfold clampedRadius
  dsimp only
  split_ifs <;> omega

theorem fillRect_paints (S : Screen d.frame) (hsvga : FillsAlike svga) (x y width height : ℤ)
    (color : UInt32)
    (h : width ≤ 0 ∨ (d.frame.info.width : ℤ) ≤ x ∨ 0 ≤ x ∧ (height ≤ 0 ∨ 0 ≤ y)) :
    ∃ d', fillRect svga d x y width height color = some d' ∧
      Paints (InRect x y width height) color d.frame d'.frame := by
  obtain ⟨st', hfill, P⟩ := S.fillRect_paints_of_clips hsvga h color
  exact ⟨{ d with frame := st' }, by rw [fillRect, hfill]; rfl, P⟩

theorem fillRect_paints_of_some (S : Screen d.frame) (hsvga : FillsAlike svga) {d' : Drawing}
    (h : fillRect svga d x y width height color = some d') :
    (width ≤ 0 ∨ (d.frame.info.width : ℤ) ≤ x ∨ 0 ≤ x ∧ (height ≤ 0 ∨ 0 ≤ y)) ∧
      Paints (InRect x y width height) color d.frame d'.frame := by
  obtain ⟨st', hfill, rfl⟩ := Option.map_eq_some_iff.mp h
  exact S.fillRect_paints_of_some hsvga hfill

/-- The rectangles, where they do not overflow. -/
theorem cross_paints (S : Screen d.frame) (hsvga : FillsAlike svga)
    (hclips : Clips d.frame.info x y width height r) (color : UInt32) :
    ∃ d₁ d₂, fillRect svga d (x + r) y (width - r * 2) height color = some d₁ ∧
      fillRect svga d₁ x (y + r) width (height - r * 2) color = some d₂ ∧
      Paints (InCross x y width height r) color d.frame d₂.frame := by
  obtain ⟨hfirst, hsecond⟩ := hclips
  obtain ⟨d₁, h₁, P₁⟩ := fillRect_paints S hsvga (x + r) y (width - r * 2) height color
    (by omega)
  have hinfo := P₁.frame.info_eq
  obtain ⟨d₂, h₂, P₂⟩ := fillRect_paints (S.congr P₁.frame) hsvga x (y + r) width
    (height - r * 2) color (by rw [hinfo]; omega)
  exact ⟨d₁, d₂, h₁, h₂, P₁.union P₂⟩

theorem clips_of_some (S : Screen d.frame) (hsvga : FillsAlike svga) (hwidth : 0 < width)
    (hheight : 0 < height) (hw : 2 * r ≤ width) (hh : 2 * r ≤ height) {d₁ d₂ : Drawing}
    (h₁ : fillRect svga d (x + r) y (width - r * 2) height color = some d₁)
    (h₂ : fillRect svga d₁ x (y + r) width (height - r * 2) color = some d₂) :
    Clips d.frame.info x y width height r := by
  obtain ⟨hfirst, P⟩ := fillRect_paints_of_some S hsvga h₁
  obtain ⟨hsecond, -⟩ := fillRect_paints_of_some (S.congr P.frame) hsvga h₂
  rw [P.frame.info_eq] at hsecond
  unfold Clips
  omega

/-- What the discs need so that nothing overflows. -/
structure CornersFit (x y width height r : ℤ) : Prop where
  x_lt : |x| < 2 ^ 60
  y_lt : |y| < 2 ^ 60
  width_lt : width < 2 ^ 60
  height_lt : height < 2 ^ 60
  radius_nonneg : 0 ≤ r
  width_ge : 2 * r ≤ width
  height_ge : 2 * r ≤ height

theorem CornersFit.circleFits (F : CornersFit x y width height r) {cx cy : ℤ}
    (h : IsCenter x y width height r cx cy) : CircleFits cx cy r := by
  obtain ⟨hx₁, hx₂⟩ := abs_lt.mp F.x_lt
  obtain ⟨hy₁, hy₂⟩ := abs_lt.mp F.y_lt
  have hw := F.width_lt
  have hh := F.height_lt
  have hr := F.radius_nonneg
  have hwr := F.width_ge
  have hhr := F.height_ge
  obtain ⟨hcx, hcy⟩ := h
  have hx : |cx| < 2 ^ 61 := by rw [abs_lt]; omega
  have hy : |cy| < 2 ^ 61 := by rw [abs_lt]; omega
  exact ⟨by omega, by omega, by omega⟩

/-- The four discs. -/
theorem discs_paint (S : Screen d.frame) (F : CornersFit x y width height r) (hr : 1 ≤ r)
    (color : UInt32) : ∃ d', cornerDiscs d (x + r) (y + r) (x + width - r - 1)
        (y + height - r - 1) r color = some d' ∧
      Paints (InDiscs x y width height r) color d.frame d'.frame := by
  obtain ⟨d₁, h₁, P₁⟩ := circle_paints S (F.circleFits ⟨Or.inl rfl, Or.inl rfl⟩) hr color
  have S₁ := S.congr P₁.frame
  obtain ⟨d₂, h₂, P₂⟩ := circle_paints S₁ (F.circleFits ⟨Or.inr rfl, Or.inl rfl⟩) hr color
  have S₂ := S₁.congr P₂.frame
  obtain ⟨d₃, h₃, P₃⟩ := circle_paints S₂ (F.circleFits ⟨Or.inl rfl, Or.inr rfl⟩) hr color
  have S₃ := S₂.congr P₃.frame
  obtain ⟨d₄, h₄, P₄⟩ := circle_paints S₃ (F.circleFits ⟨Or.inr rfl, Or.inr rfl⟩) hr color
  refine ⟨d₄, ?_, (((P₁.union P₂).union P₃).union P₄).congr fun px py _ _ => ?_⟩
  · simp only [cornerDiscs, Option.bind_eq_bind, h₁, h₂, h₃, h₄, Option.bind_some]
  constructor
  · rintro ⟨cx, cy, ⟨rfl | rfl, rfl | rfl⟩, hdisc⟩
    · exact Or.inl (Or.inl (Or.inl hdisc))
    · exact Or.inl (Or.inr hdisc)
    · exact Or.inl (Or.inl (Or.inr hdisc))
    · exact Or.inr hdisc
  · rintro (((hdisc | hdisc) | hdisc) | hdisc)
    · exact ⟨_, _, ⟨Or.inl rfl, Or.inl rfl⟩, hdisc⟩
    · exact ⟨_, _, ⟨Or.inr rfl, Or.inl rfl⟩, hdisc⟩
    · exact ⟨_, _, ⟨Or.inl rfl, Or.inr rfl⟩, hdisc⟩
    · exact ⟨_, _, ⟨Or.inr rfl, Or.inr rfl⟩, hdisc⟩

/-- The computations of coordinates do not overflow. -/
theorem fillRoundedRect_unfold {radius : ℤ} (hwidth : 0 < width) (hheight : 0 < height)
    (F : CornersFit x y width height (clampedRadius width height radius))
    (hr : 1 ≤ clampedRadius width height radius) :
    framebufferFillRoundedRect svga d x y width height radius color =
      let r := clampedRadius width height radius
      (fillRect svga d (x + r) y (width - r * 2) height color).bind fun d =>
      (fillRect svga d x (y + r) width (height - r * 2) color).bind fun d =>
      cornerDiscs d (x + r) (y + r) (x + width - r - 1) (y + height - r - 1) r color := by
  obtain ⟨hx₁, hx₂⟩ := abs_lt.mp F.x_lt
  obtain ⟨hy₁, hy₂⟩ := abs_lt.mp F.y_lt
  have hw := F.width_lt
  have hh := F.height_lt
  have hwr := F.width_ge
  have hhr := F.height_ge
  unfold framebufferFillRoundedRect
  rw [if_neg (by omega)]
  generalize clampedRadius width height radius = r at *
  dsimp only
  rw [if_neg (by omega)]
  dsimp only [Option.bind_eq_bind]
  rw [checkInt64_of_lt (v := x + r) (by omega) (by omega),
    checkInt64_of_lt (v := y + r) (by omega) (by omega),
    checkInt64_of_lt (v := r * 2) (by omega) (by omega),
    checkInt64_of_lt (v := x + width) (by omega) (by omega),
    checkInt64_of_lt (v := y + height) (by omega) (by omega)]
  simp only [Option.bind_some]
  rw [checkInt64_of_lt (v := width - r * 2) (by omega) (by omega),
    checkInt64_of_lt (v := height - r * 2) (by omega) (by omega),
    checkInt64_of_lt (v := x + width - r) (by omega) (by omega),
    checkInt64_of_lt (v := y + height - r) (by omega) (by omega)]
  simp only [Option.bind_some]
  rw [checkInt64_of_lt (v := x + width - r - 1) (by omega) (by omega),
    checkInt64_of_lt (v := y + height - r - 1) (by omega) (by omega)]
  rfl

/-- What the function paints, where nothing overflows. -/
theorem fillRoundedRect_paints {radius : ℤ} (S : Screen d.frame) (hsvga : FillsAlike svga)
    (hwidth : 0 < width) (hheight : 0 < height)
    (F : CornersFit x y width height (clampedRadius width height radius))
    (hclips : Clips d.frame.info x y width height (clampedRadius width height radius))
    (color : UInt32) :
    ∃ d', framebufferFillRoundedRect svga d x y width height radius color = some d' ∧
      Paints (fun px py => InCross x y width height (clampedRadius width height radius) px py ∨
        1 ≤ clampedRadius width height radius ∧
          InDiscs x y width height (clampedRadius width height radius) px py) color
        d.frame d'.frame := by
  rcases F.radius_nonneg.eq_or_lt with hzero | hr
  · rw [← hzero] at hclips ⊢
    unfold Clips at hclips
    obtain ⟨d', hfill, P⟩ := fillRect_paints S hsvga x y width height color (by omega)
    refine ⟨d', ?_, P.congr fun px py _ _ => ?_⟩
    · unfold framebufferFillRoundedRect
      rw [if_neg (by omega)]
      dsimp only
      rw [if_pos hzero.symm]
      exact hfill
    · unfold InCross InRect
      omega
  · obtain ⟨d₁, d₂, h₁, h₂, P₁⟩ := cross_paints S hsvga hclips color
    obtain ⟨d₃, h₃, P₂⟩ := discs_paint (S.congr P₁.frame) F hr color
    refine ⟨d₃, ?_, (P₁.union P₂).congr fun px py _ _ => or_congr Iff.rfl (and_iff_right hr)⟩
    rw [fillRoundedRect_unfold hwidth hheight F hr]
    dsimp only
    rw [h₁, Option.bind_some, h₂, Option.bind_some, h₃]

theorem fillRoundedRect_clips {radius : ℤ} (S : Screen d.frame) (hsvga : FillsAlike svga)
    (hwidth : 0 < width) (hheight : 0 < height)
    (F : CornersFit x y width height (clampedRadius width height radius)) {d' : Drawing}
    (h : framebufferFillRoundedRect svga d x y width height radius color = some d') :
    Clips d.frame.info x y width height (clampedRadius width height radius) := by
  rcases F.radius_nonneg.eq_or_lt with hzero | hr
  · unfold framebufferFillRoundedRect at h
    rw [if_neg (by omega)] at h
    dsimp only at h
    rw [if_pos hzero.symm] at h
    obtain ⟨hfill, -⟩ := fillRect_paints_of_some S hsvga h
    rw [← hzero]
    unfold Clips
    omega
  · rw [fillRoundedRect_unfold hwidth hheight F hr] at h
    obtain ⟨d₁, h₁, h⟩ := Option.bind_eq_some_iff.mp h
    obtain ⟨d₂, h₂, -⟩ := Option.bind_eq_some_iff.mp h
    exact clips_of_some S hsvga hwidth hheight F.width_ge F.height_ge h₁ h₂

/-- `framebuffer_fill_rounded_rect` paints the rectangle but for its corner squares, and nothing
outside of the rectangle, exactly when no rectangle of it begins left of or above the screen and
the pixels beside it that the discs reach have the colour already. -/
theorem fillRoundedRect_contained_iff (S : Screen d.frame) (hsvga : FillsAlike svga)
    (hx : |x| < 2 ^ 60) (hy : |y| < 2 ^ 60) (hwidth : 0 < width) (hwidth' : width < 2 ^ 60)
    (hheight : 0 < height) (hheight' : height < 2 ^ 60) (radius : ℤ) (color : UInt32) :
    (∃ d', framebufferFillRoundedRect svga d x y width height radius color = some d' ∧
      ∀ px py, px < d.frame.info.width → py < d.frame.info.height →
        (¬InRect x y width height px py → pixel d'.frame px py = pixel d.frame px py) ∧
        (InRect x y width height px py →
          ¬InCorners x y width height (clampedRadius width height radius) px py →
          pixel d'.frame px py = color)) ↔
      Clips d.frame.info x y width height (clampedRadius width height radius) ∧
        ∀ px py, px < d.frame.info.width → py < d.frame.info.height →
          Spills x y width height (clampedRadius width height radius) px py →
          pixel d.frame px py = color := by
  obtain ⟨hr, hw, hh⟩ := clampedRadius_spec hwidth hheight radius
  have F : CornersFit x y width height (clampedRadius width height radius) :=
    ⟨hx, hy, hwidth', hheight', hr, hw, hh⟩
  constructor
  · rintro ⟨d', hdraw, hpixels⟩
    have hclips := fillRoundedRect_clips S hsvga hwidth hheight F hdraw
    refine ⟨hclips, fun px py hpx hpy hspill => ?_⟩
    have hr' : 1 ≤ clampedRadius width height radius := by
      unfold Spills at hspill
      omega
    obtain ⟨d'', hdraw', P⟩ := fillRoundedRect_paints S hsvga hwidth hheight F hclips color
    obtain rfl : d'' = d' := Option.some.inj (hdraw'.symm.trans hdraw)
    obtain ⟨hdiscs, hout⟩ := (inDiscs_outside_iff hr' hw hh).mpr hspill
    rw [← (hpixels px py hpx hpy).1 hout]
    exact P.inside px py hpx hpy (Or.inr ⟨hr', hdiscs⟩)
  · rintro ⟨hclips, hspill⟩
    obtain ⟨d', hdraw, P⟩ := fillRoundedRect_paints S hsvga hwidth hheight F hclips color
    refine ⟨d', hdraw, fun px py hpx hpy => ⟨fun hout => ?_, fun hin hcorners => ?_⟩⟩
    · by_cases hdiscs : 1 ≤ clampedRadius width height radius ∧
          InDiscs x y width height (clampedRadius width height radius) px py
      · rw [P.inside px py hpx hpy (Or.inr hdiscs)]
        exact (hspill px py hpx hpy
          ((inDiscs_outside_iff hdiscs.1 hw hh).mp ⟨hdiscs.2, hout⟩)).symm
      · refine P.outside px py hpx hpy fun harea => ?_
        rcases harea with hcross | hdiscs'
        · exact hout ((inCross_iff hr).mp hcross).1
        · exact hdiscs hdiscs'
    · exact P.inside px py hpx hpy (Or.inl ((inCross_iff hr).mpr ⟨hin, hcorners⟩))

theorem fillRoundedRect_contained_iff_odd :
    ∃ d', framebufferFillRoundedRect Svga.absent ⟨smallScreen, []⟩ 4 4 5 7 2 5 = some d' ∧
      pixel d'.frame 6 10 = 5 ∧ pixel d'.frame 9 6 = pixel smallScreen 9 6 := by
  have hiff := fillRoundedRect_contained_iff (d := ⟨smallScreen, []⟩) smallScreen_screen
    fillsAlike_absent (show |(4 : ℤ)| < 2 ^ 60 by decide) (show |(4 : ℤ)| < 2 ^ 60 by decide)
    (show 0 < (5 : ℤ) by decide) (by decide) (show 0 < (7 : ℤ) by decide) (by decide) 2 5
  have hradius : clampedRadius 5 7 2 = 2 := by decide
  rw [hradius] at hiff
  obtain ⟨d', hdraw, hpixels⟩ := hiff.mpr ⟨by unfold Clips; decide, fun px py _ _ h => by
    unfold Spills at h
    omega⟩
  exact ⟨d', hdraw, (hpixels 6 10 (by decide) (by decide)).2 (by unfold InRect; omega)
    (by unfold InCorners; omega), (hpixels 9 6 (by decide) (by decide)).1 (by unfold InRect; omega)⟩

/-- A rectangle of 4 by 6 pixels at (4, 4) with radius 2: the pixel (8, 6) is right of it, and is
painted. -/
theorem fillRoundedRect_spills : Screen smallScreen ∧ ¬InRect 4 4 4 6 8 6 ∧
    pixel smallScreen 8 6 = 0 ∧
    (framebufferFillRoundedRect Svga.absent ⟨smallScreen, []⟩ 4 4 4 6 2 5).map
      (fun d => pixel d.frame 8 6) = some 5 :=
  ⟨smallScreen_screen, by unfold InRect; omega, by decide, by decide +kernel⟩

end Shape

end JsOs.RoundedRectangles

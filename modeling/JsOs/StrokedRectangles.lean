import JsOs.FramebufferPainting

/-!
# `framebuffer_stroke_rect`

Four rectangles, one along each side. The thickness is not clamped to the sides, so that a thick
one is painted beyond the opposite side.
-/

namespace JsOs.StrokedRectangles

open MachineWords FramebufferModel FramebufferPainting

variable {svga : Svga} {st : FramebufferState} {x y width height t : ℤ}

section Bands

/-- The points of the rectangle that lie less than `t` from one of its sides. -/
def InBorder (x y width height t : ℤ) (px py : ℕ) : Prop :=
  InRect x y width height px py ∧
    ((px : ℤ) < x + t ∨ x + width - t ≤ px ∨ (py : ℤ) < y + t ∨ y + height - t ≤ py)

/-- The four rectangles of `framebuffer_stroke_rect`. -/
def InBands (x y width height t : ℤ) (px py : ℕ) : Prop :=
  ((InRect x y width t px py ∨ InRect x (y + height - t) width t px py) ∨
    InRect x y t height px py) ∨ InRect (x + width - t) y t height px py

/-- What they paint beside the rectangle: nothing, unless a side is shorter than the thickness. -/
def Overhangs (x y width height t : ℤ) (px py : ℕ) : Prop :=
  (x ≤ px ∧ (px : ℤ) < x + width ∧
      (y + height - t ≤ py ∧ (py : ℤ) < y ∨ y + height ≤ py ∧ (py : ℤ) < y + t)) ∨
    (y ≤ py ∧ (py : ℤ) < y + height ∧
      (x + width - t ≤ px ∧ (px : ℤ) < x ∨ x + width ≤ px ∧ (px : ℤ) < x + t))

/-- No call of `framebuffer_fill_rect` overflows. -/
def BandsClip (info : FramebufferInfo) (x y width height t : ℤ) : Prop :=
  ((info.width : ℤ) ≤ x ∨ 0 ≤ x ∧ 0 ≤ y ∧ 0 ≤ y + height - t) ∧
    ((info.width : ℤ) ≤ x + width - t ∨ 0 ≤ x + width - t ∧ 0 ≤ y)

theorem inBands_iff (hwidth : 0 < width) (hheight : 0 < height) (ht : 0 < t) {px py : ℕ} :
    InBands x y width height t px py ↔
      InBorder x y width height t px py ∨ Overhangs x y width height t px py := by
  unfold InBands InBorder Overhangs InRect
  omega

theorem not_inBorder_of_overhangs {px py : ℕ} (h : Overhangs x y width height t px py) :
    ¬InBorder x y width height t px py := by
  unfold Overhangs at h
  unfold InBorder InRect
  omega

end Bands

section Stroke

variable {color thickness : UInt32}

/-- What keeps the origins of the rectangles representable. -/
structure SidesFit (x y width height : ℤ) : Prop where
  x_lt : |x| < 2 ^ 60
  y_lt : |y| < 2 ^ 60
  width_pos : 0 < width
  width_lt : width < 2 ^ 60
  height_pos : 0 < height
  height_lt : height < 2 ^ 60

/-- The computations of coordinates do not overflow. -/
theorem strokeRect_unfold (F : SidesFit x y width height) (hthickness : thickness ≠ 0)
    (ht : t = thickness.toNat) :
    framebufferStrokeRect svga st x y width height color thickness =
      (framebufferFillRect svga st x y width t color).bind fun st =>
      (framebufferFillRect svga st x (y + height - t) width t color).bind fun st =>
      (framebufferFillRect svga st x y t height color).bind fun st =>
      framebufferFillRect svga st (x + width - t) y t height color := by
  obtain ⟨hx, hx'⟩ := abs_lt.mp F.x_lt
  obtain ⟨hy, hy'⟩ := abs_lt.mp F.y_lt
  have hw := F.width_pos
  have hw' := F.width_lt
  have hh := F.height_pos
  have hh' := F.height_lt
  have hlt := thickness.toNat_lt
  have hproceed : ¬(thickness = 0 ∨ width ≤ 0 ∨ height ≤ 0) := by
    rintro (h | h | h)
    · exact hthickness h
    · omega
    · omega
  unfold framebufferStrokeRect
  rw [if_neg hproceed, ← ht]
  simp only [Option.bind_eq_bind]
  rw [checkInt64_of_lt (v := x + width) (by omega) (by omega),
    checkInt64_of_lt (v := y + height) (by omega) (by omega)]
  simp only [Option.bind_some]
  rw [checkInt64_of_lt (v := x + width - t) (by omega) (by omega),
    checkInt64_of_lt (v := y + height - t) (by omega) (by omega)]
  simp only [Option.bind_some]

/-- The rectangles, where they do not overflow. -/
theorem bands_paint (S : Screen st) (hsvga : FillsAlike svga)
    (hclips : BandsClip st.info x y width height t) (color : UInt32) :
    ∃ st', ((framebufferFillRect svga st x y width t color).bind fun st =>
        (framebufferFillRect svga st x (y + height - t) width t color).bind fun st =>
        (framebufferFillRect svga st x y t height color).bind fun st =>
        framebufferFillRect svga st (x + width - t) y t height color) = some st' ∧
      Paints (InBands x y width height t) color st st' := by
  obtain ⟨hleft, hright⟩ := hclips
  have htop : width ≤ 0 ∨ (st.info.width : ℤ) ≤ x ∨ 0 ≤ x ∧ (t ≤ 0 ∨ 0 ≤ y) := by omega
  have hbottom : width ≤ 0 ∨ (st.info.width : ℤ) ≤ x ∨
      0 ≤ x ∧ (t ≤ 0 ∨ 0 ≤ y + height - t) := by omega
  have hfirst : t ≤ 0 ∨ (st.info.width : ℤ) ≤ x ∨ 0 ≤ x ∧ (height ≤ 0 ∨ 0 ≤ y) := by omega
  have hlast : t ≤ 0 ∨ (st.info.width : ℤ) ≤ x + width - t ∨
      0 ≤ x + width - t ∧ (height ≤ 0 ∨ 0 ≤ y) := by omega
  obtain ⟨st₁, h₁, P₁⟩ := S.fillRect_paints_of_clips hsvga htop color
  rw [← P₁.frame.info_eq] at hbottom
  obtain ⟨st₂, h₂, P₂⟩ := (S.congr P₁.frame).fillRect_paints_of_clips hsvga hbottom color
  have P₁₂ := P₁.union P₂
  rw [← P₁₂.frame.info_eq] at hfirst
  obtain ⟨st₃, h₃, P₃⟩ := (S.congr P₁₂.frame).fillRect_paints_of_clips hsvga hfirst color
  have P₁₂₃ := P₁₂.union P₃
  rw [← P₁₂₃.frame.info_eq] at hlast
  obtain ⟨st₄, h₄, P₄⟩ := (S.congr P₁₂₃.frame).fillRect_paints_of_clips hsvga hlast color
  refine ⟨st₄, ?_, P₁₂₃.union P₄⟩
  rw [h₁, Option.bind_some, h₂, Option.bind_some, h₃, Option.bind_some, h₄]

theorem bandsClip_of_some (S : Screen st) (hsvga : FillsAlike svga) (hwidth : 0 < width)
    (hheight : 0 < height) (ht : 0 < t) {st' : FramebufferState}
    (h : ((framebufferFillRect svga st x y width t color).bind fun st =>
        (framebufferFillRect svga st x (y + height - t) width t color).bind fun st =>
        (framebufferFillRect svga st x y t height color).bind fun st =>
        framebufferFillRect svga st (x + width - t) y t height color) = some st') :
    BandsClip st.info x y width height t := by
  obtain ⟨st₁, h₁, h⟩ := Option.bind_eq_some_iff.mp h
  obtain ⟨st₂, h₂, h⟩ := Option.bind_eq_some_iff.mp h
  obtain ⟨st₃, h₃, h₄⟩ := Option.bind_eq_some_iff.mp h
  obtain ⟨htop, P₁⟩ := S.fillRect_paints_of_some hsvga h₁
  obtain ⟨hbottom, P₂⟩ := (S.congr P₁.frame).fillRect_paints_of_some hsvga h₂
  have P₁₂ := P₁.union P₂
  obtain ⟨hfirst, P₃⟩ := (S.congr P₁₂.frame).fillRect_paints_of_some hsvga h₃
  have P₁₂₃ := P₁₂.union P₃
  obtain ⟨hlast, -⟩ := (S.congr P₁₂₃.frame).fillRect_paints_of_some hsvga h₄
  rw [P₁.frame.info_eq] at hbottom
  rw [P₁₂₃.frame.info_eq] at hlast
  unfold BandsClip
  omega

/-- `framebuffer_stroke_rect` paints the points of the rectangle less than the thickness away from
a side, and no others, exactly when no rectangle of it begins left of or above the screen and the
pixels beside the rectangle that a thick side reaches have the colour already. -/
theorem strokeRect_exact_iff (S : Screen st) (hsvga : FillsAlike svga)
    (F : SidesFit x y width height) (hthickness : thickness ≠ 0) (color : UInt32) :
    (∃ st', framebufferStrokeRect svga st x y width height color thickness = some st' ∧
      Paints (InBorder x y width height thickness.toNat) color st st') ↔
      BandsClip st.info x y width height thickness.toNat ∧
        ∀ px py, px < st.info.width → py < st.info.height →
          Overhangs x y width height thickness.toNat px py → pixel st px py = color := by
  have hpos : (0 : ℤ) < thickness.toNat := by
    have hne : thickness.toNat ≠ 0 := fun h => hthickness (UInt32.toNat_inj.mp h)
    omega
  rw [strokeRect_unfold F hthickness rfl]
  generalize (thickness.toNat : ℤ) = t at *
  have hiff : ∀ px py, InBands x y width height t px py ↔
      InBorder x y width height t px py ∨ Overhangs x y width height t px py :=
    fun px py => inBands_iff F.width_pos F.height_pos hpos
  constructor
  · rintro ⟨st', hdraw, hborder⟩
    have hclips := bandsClip_of_some S hsvga F.width_pos F.height_pos hpos hdraw
    refine ⟨hclips, fun px py hpx hpy hover => ?_⟩
    obtain ⟨st'', hdraw', hbands⟩ := bands_paint S hsvga hclips color
    obtain rfl := Option.some.inj (hdraw'.symm.trans hdraw)
    rw [← hborder.outside px py hpx hpy (not_inBorder_of_overhangs hover)]
    exact hbands.inside px py hpx hpy ((hiff px py).mpr (Or.inr hover))
  · rintro ⟨hclips, hcolor⟩
    obtain ⟨st', hdraw, hbands⟩ := bands_paint S hsvga hclips color
    refine ⟨st', hdraw, hbands.frame, fun px py hpx hpy hin => ?_, fun px py hpx hpy hout => ?_⟩
    · exact hbands.inside px py hpx hpy ((hiff px py).mpr (Or.inl hin))
    · by_cases hover : Overhangs x y width height t px py
      · -- painted, but in the colour that the pixel had
        rw [hcolor px py hpx hpy hover]
        exact hbands.inside px py hpx hpy ((hiff px py).mpr (Or.inr hover))
      · exact hbands.outside px py hpx hpy fun h => ((hiff px py).mp h).elim hout hover

theorem strokeRect_exact_iff_frame :
    (∃ st', framebufferStrokeRect Svga.absent smallScreen 4 4 20 7 5 2 = some st' ∧
      Paints (InBorder 4 4 20 7 2) 5 smallScreen st') ↔
      BandsClip smallScreen.info 4 4 20 7 2 ∧ ∀ px py, px < 16 → py < 16 →
        Overhangs 4 4 20 7 2 px py → pixel smallScreen px py = 5 :=
  strokeRect_exact_iff smallScreen_screen fillsAlike_absent
    ⟨by decide, by decide, by decide, by decide, by decide, by decide⟩ (by decide) 5

/-- A rectangle of 8 by 2 pixels at (4, 4) and 3 pixels thick: the row below it is painted. -/
theorem strokeRect_overhangs : Screen smallScreen ∧ ¬InRect 4 4 8 2 6 6 ∧
    pixel smallScreen 6 6 = 0 ∧
    (framebufferStrokeRect Svga.absent smallScreen 4 4 8 2 5 3).map (fun st => pixel st 6 6) =
      some 5 :=
  ⟨smallScreen_screen, by unfold InRect; omega, by decide, by decide +kernel⟩

end Stroke

end JsOs.StrokedRectangles

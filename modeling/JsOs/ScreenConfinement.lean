import JsOs.ConsoleRefinement
import JsOs.ImageBlits
import JsOs.TextModel

/-!
# Drawing stays on the screen

Whatever is drawn, with whatever arguments, no byte of memory changes but those of the pixels of
the screen: not the bytes between the end of a row and the next one, nor any byte before or behind
the framebuffer.
-/

namespace JsOs.ScreenConfinement

open CountedLoops ByteMemory MachineWords FramebufferModel FramebufferPainting DrawingModel
open BlendingModel ConsoleModel ConsoleRefinement TextModel PixelStores TransitionRuns

/-- The bytes of the pixels of a screen. -/
def PixelByte (st : FramebufferState) (a : ℕ) : Prop :=
  ∃ x < st.info.width, ∃ y < st.info.height, ∃ i < 4, a = st.address + y * st.info.pitch + x * 4 + i

/-- `st'` is another picture on the same screen; cursor and colours of the console do not count. -/
structure SamePlace (st st' : FramebufferState) : Prop where
  initialized : st'.initialized = st.initialized
  address : st'.address = st.address
  info : st'.info = st.info
  memory : ∀ a, ¬PixelByte st a → st'.memory a = st.memory a

def Confined (st st' : FramebufferState) : Prop := Screen st → SamePlace st st'

variable {svga : Svga} {fonts : Fonts} {st st' st'' : FramebufferState} {d d' : Drawing}

theorem SamePlace.screen (h : SamePlace st st') (S : Screen st) : Screen st' :=
  S.of_eq h.initialized h.address h.info

theorem SamePlace.pixelByte (h : SamePlace st st') (a : ℕ) : PixelByte st' a ↔ PixelByte st a := by
  unfold PixelByte
  rw [h.address, h.info]

theorem SamePlace.trans (h : SamePlace st st') (h' : SamePlace st' st'') : SamePlace st st'' :=
  ⟨h'.initialized.trans h.initialized, h'.address.trans h.address, h'.info.trans h.info,
    fun a ha => (h'.memory a fun hb => ha ((h.pixelByte a).mp hb)).trans (h.memory a ha)⟩

namespace Confined

theorem refl (st : FramebufferState) : Confined st st := fun _ => ⟨rfl, rfl, rfl, fun _ _ => rfl⟩

theorem trans (h : Confined st st') (h' : Confined st' st'') : Confined st st'' := fun S =>
  (h S).trans (h' ((h S).screen S))

end Confined

section Pixels

/-- A store to a pixel of the screen. -/
theorem storePixel_confined {x y : ℕ} (hx : x < st.info.width) (hy : y < st.info.height)
    (color : UInt32) : Confined st (storePixel st x y color) := by
  refine fun S => ⟨rfl, rfl, rfl, fun a ha => ?_⟩
  obtain ⟨haddress, -, -⟩ := S.pixelAddress_eq hx hy
  have hlt := pixelAddress_lt st x y
  have houtside : ¬(a < 2 ^ 64 ∧ sub64 a (pixelAddress st x y) < 4) := by
    rintro ⟨hbound, hnear⟩
    obtain ⟨h₁, h₂, h₃⟩ := S.pixelAddress_eq hx hy
    have hfits := S.fits
    refine ha ⟨x, hx, y, hy, sub64 a (pixelAddress st x y), hnear, ?_⟩
    unfold sub64 at hnear ⊢
    omega
  exact if_neg houtside

theorem setPixel_confined (x y : ℤ) (color : UInt32) :
    Confined st (framebufferSetPixel st x y color).2 := by
  unfold framebufferSetPixel
  split_ifs with hguard
  · exact .refl st
  · exact storePixel_confined (by omega) (by omega) color

theorem blendPixel_confined (x y : ℤ) (color : UInt32) (alpha : UInt8) :
    Confined st (framebufferBlendPixel st x y color alpha).2 := by
  unfold framebufferBlendPixel
  split
  · exact .refl st
  · split_ifs
    · exact .refl st
    · exact setPixel_confined x y color
    · exact setPixel_confined x y _

theorem plot_confined (d : Drawing) (x y : ℤ) (color : UInt32) :
    Confined d.frame (plot d x y color).frame := setPixel_confined x y color

end Pixels

section Rectangles

/-- A loop whose rounds stay on the screen, as long as the screen is the same. -/
theorem forRange_confined {body : ℕ → FramebufferState → FramebufferState} {lo hi : ℕ}
    (hbody : ∀ i t, i < hi → SamePlace st t → Confined t (body i t)) :
    Confined st (forRange lo hi body st) := by
  intro S
  rcases Nat.le_total lo hi with hle | hle
  · exact forRange_invariant (fun _ t => SamePlace st t) hle (Confined.refl st S)
      fun i t _ hlt h => h.trans (hbody i t hlt h (h.screen S))
  · have hempty : hi - lo = 0 := Nat.sub_eq_zero_of_le hle
    rw [forRange, hempty]
    exact Confined.refl st S

theorem paintRows_confined {startX endX startY endY : ℕ} (hx : endX ≤ st.info.width)
    (hy : endY ≤ st.info.height) (color : UInt32) :
    Confined st (paintRows st startX endX startY endY color) := by
  refine forRange_confined fun row t hrow h => forRange_confined fun column u hcolumn h' => ?_
  exact storePixel_confined (by rw [h'.info, h.info]; omega) (by rw [h'.info, h.info]; omega) color

theorem framebufferClear_confined (hsvga : FillsAlike svga) (color : UInt32) :
    Confined st (framebufferClear svga st color) := by
  have hloops : Confined st (paintRows st 0 st.info.width 0 st.info.height color) :=
    paintRows_confined le_rfl le_rfl color
  unfold framebufferClear
  by_cases hready : (!st.initialized) = true
  · rw [if_pos hready]
    exact .refl st
  · rw [if_neg hready]
    dsimp only
    split
    · rename_i st' heq
      split_ifs at heq with hacc
      obtain ⟨hwidth, hheight⟩ := hsvga.sides_lt hacc
      have hst := hsvga.fill _ _ _ _ _ _ _ heq
      rw [Nat.mod_eq_of_lt hwidth, Nat.mod_eq_of_lt hheight, Nat.zero_add, Nat.zero_add] at hst
      rwa [hst]
    · exact hloops

/-- A clipped range lies on the axis. -/
theorem clipAxis_some {start length : ℤ} {maximum a b : ℕ} (hmax : maximum < 2 ^ 62)
    (h : clipAxis start length maximum = some (some (a, b))) : a < b ∧ b ≤ maximum := by
  unfold clipAxis at h
  rw [toInt64_eq (show maximum < 2 ^ 63 by omega)] at h
  by_cases hempty : length ≤ 0 ∨ start ≥ maximum
  · rw [if_pos hempty] at h
    cases h
  rw [if_neg hempty] at h
  obtain ⟨stop, -, h⟩ := Option.bind_eq_some_iff.mp h
  by_cases hstop : stop ≤ 0
  · rw [if_pos hstop] at h
    cases h
  rw [if_neg hstop] at h
  dsimp only at h
  generalize (if start < 0 then 0 else start.toNat) = low at h
  generalize hhigh : (if stop > maximum then maximum else stop.toNat) = high at h
  by_cases hlt : low < high
  · rw [if_pos hlt] at h
    cases h
    refine ⟨hlt, ?_⟩
    rw [← hhigh]
    split_ifs <;> omega
  · rw [if_neg hlt] at h
    cases h

theorem fillClipped_confined (hsvga : FillsAlike svga) {startX endX startY endY : ℕ}
    (hlex : startX ≤ endX) (hx : endX ≤ st.info.width) (hley : startY ≤ endY)
    (hy : endY ≤ st.info.height) (color : UInt32) :
    Confined st (fillClipped svga st startX endX startY endY color) := by
  intro S
  have hloops : SamePlace st (paintRows st startX endX startY endY color) :=
    paintRows_confined hx hy color S
  have hW := S.width_lt
  have hH := S.height_lt
  unfold fillClipped
  rw [sub64_eq hlex (by omega), sub64_eq hley (by omega)]
  dsimp only
  split
  · rename_i st' heq
    split_ifs at heq with hlarge
    obtain ⟨hwidth, hheight⟩ := hsvga.sides_lt hlarge.2
    have hst := hsvga.fill _ _ _ _ _ _ _ heq
    rw [Nat.mod_eq_of_lt (show startX < _ by omega), Nat.mod_eq_of_lt (show startY < _ by omega),
      Nat.mod_eq_of_lt (show endX - startX < _ by omega),
      Nat.mod_eq_of_lt (show endY - startY < _ by omega), Nat.add_sub_of_le hlex,
      Nat.add_sub_of_le hley] at hst
    rwa [hst]
  · exact hloops

theorem fillRect_confined (hsvga : FillsAlike svga) {x y width height : ℤ} {color : UInt32}
    (h : framebufferFillRect svga st x y width height color = some st') : Confined st st' := by
  intro S
  unfold framebufferFillRect at h
  split_ifs at h with hready
  · cases h
    exact Confined.refl st S
  · obtain ⟨rangeX, hX, h⟩ := Option.bind_eq_some_iff.mp h
    cases rangeX with
    | none =>
      cases h
      exact Confined.refl st S
    | some rangeX =>
      obtain ⟨rangeY, hY, h⟩ := Option.bind_eq_some_iff.mp h
      cases rangeY with
      | none =>
        cases h
        exact Confined.refl st S
      | some rangeY =>
        cases h
        obtain ⟨hltX, hleX⟩ := clipAxis_some S.width_lt hX
        obtain ⟨hltY, hleY⟩ := clipAxis_some S.height_lt hY
        exact fillClipped_confined hsvga hltX.le hleX hltY.le hleY color S

theorem strokeRect_confined (hsvga : FillsAlike svga) {x y width height : ℤ}
    {color thickness : UInt32}
    (h : framebufferStrokeRect svga st x y width height color thickness = some st') :
    Confined st st' := by
  unfold framebufferStrokeRect at h
  split_ifs at h with hempty
  · cases h
    exact .refl st
  · simp only [Option.bind_eq_bind, Option.bind_eq_some_iff] at h
    obtain ⟨top, htop, _, -, _, -, bottom, hbottom, left, hleft, _, -, _, -, hright⟩ := h
    exact (((fillRect_confined hsvga htop).trans (fillRect_confined hsvga hbottom)).trans
      (fillRect_confined hsvga hleft)).trans (fillRect_confined hsvga hright)

end Rectangles

section Shapes

theorem fillRect_drawing_confined (hsvga : FillsAlike svga) {x y width height : ℤ} {color : UInt32}
    (h : fillRect svga d x y width height color = some d') : Confined d.frame d'.frame := by
  obtain ⟨st', hst, rfl⟩ := Option.map_eq_some_iff.mp h
  exact fillRect_confined hsvga hst

theorem lineFrom_confined {dx sx dy sy x1 y1 : ℤ} {color : UInt32} {fuel : ℕ} {c : LineCursor}
    (h : lineFrom dx sx dy sy x1 y1 color fuel c d = some d') : Confined d.frame d'.frame := by
  induction fuel generalizing c d with
  | zero => cases h
  | succ fuel ih =>
    unfold lineFrom at h
    dsimp only at h
    have hplot := plot_confined d c.x0 c.y0 color
    split_ifs at h with hend
    · exact Option.some.inj h ▸ hplot
    · obtain ⟨c', -, htail⟩ := Option.bind_eq_some_iff.mp h
      exact hplot.trans (ih htail)

theorem line_confined {x0 y0 x1 y1 : ℤ} {color : UInt32}
    (h : framebufferLine d x0 y0 x1 y1 color = some d') : Confined d.frame d'.frame := by
  unfold framebufferLine at h
  simp only [Option.bind_eq_bind, Option.bind_eq_some_iff] at h
  obtain ⟨_, -, _, -, _, -, _, -, _, -, _, -, hline⟩ := h
  exact lineFrom_confined hline

theorem circleSpan_confined {cx cy x y : ℤ} {color : UInt32}
    (h : circleSpan d cx cy x y color = some d') : Confined d.frame d'.frame := by
  unfold circleSpan at h
  simp only [Option.bind_eq_bind, Option.bind_eq_some_iff] at h
  obtain ⟨_, -, _, -, _, -, _, -, hline⟩ := h
  exact line_confined hline

theorem circlePixel_confined {cx cy x y : ℤ} {color : UInt32}
    (h : circlePixel d cx cy x y color = some d') : Confined d.frame d'.frame := by
  unfold circlePixel at h
  simp only [Option.bind_eq_bind, Option.bind_eq_some_iff, Option.some.injEq] at h
  obtain ⟨left, -, top, -, rfl⟩ := h
  exact plot_confined d left top color

theorem circlePoints_confined {cx cy x y : ℤ} {color : UInt32} {filled : Bool}
    (h : circlePoints d cx cy x y color filled = some d') : Confined d.frame d'.frame := by
  unfold circlePoints at h
  split_ifs at h
  · simp only [Option.bind_eq_bind, Option.bind_eq_some_iff] at h
    obtain ⟨d₁, h₁, d₂, h₂, d₃, h₃, h₄⟩ := h
    exact (((circleSpan_confined h₁).trans (circleSpan_confined h₂)).trans
      (circleSpan_confined h₃)).trans (circleSpan_confined h₄)
  · simp only [Option.bind_eq_bind, Option.bind_eq_some_iff] at h
    obtain ⟨d₁, h₁, d₂, h₂, d₃, h₃, d₄, h₄, d₅, h₅, d₆, h₆, d₇, h₇, h₈⟩ := h
    have hfirst := (((circlePixel_confined h₁).trans (circlePixel_confined h₂)).trans
      (circlePixel_confined h₃)).trans (circlePixel_confined h₄)
    exact (((hfirst.trans (circlePixel_confined h₅)).trans (circlePixel_confined h₆)).trans
      (circlePixel_confined h₇)).trans (circlePixel_confined h₈)

theorem circleFrom_confined {cx cy : ℤ} {color : UInt32} {filled : Bool} {fuel : ℕ}
    {c : CircleCursor} (h : circleFrom cx cy color filled fuel c d = some d') :
    Confined d.frame d'.frame := by
  induction fuel generalizing c d with
  | zero => cases h
  | succ fuel ih =>
    unfold circleFrom at h
    split_ifs at h with hloop
    · simp only [Option.bind_eq_bind, Option.bind_eq_some_iff] at h
      obtain ⟨d₁, h₁, c', -, htail⟩ := h
      exact (circlePoints_confined h₁).trans (ih htail)
    · exact Option.some.inj h ▸ .refl d.frame

theorem circle_confined {cx cy radius : ℤ} {color : UInt32} {filled : Bool}
    (h : framebufferCircle d cx cy radius color filled = some d') : Confined d.frame d'.frame := by
  unfold framebufferCircle at h
  split_ifs at h with hradius
  · exact Option.some.inj h ▸ .refl d.frame
  · obtain ⟨error, -, hcircle⟩ := Option.bind_eq_some_iff.mp h
    exact circleFrom_confined hcircle

theorem roundedRect_confined (hsvga : FillsAlike svga) {x y width height radius : ℤ}
    {color : UInt32}
    (h : framebufferFillRoundedRect svga d x y width height radius color = some d') :
    Confined d.frame d'.frame := by
  unfold framebufferFillRoundedRect at h
  dsimp only at h
  split_ifs at h with hempty hradius
  · exact Option.some.inj h ▸ .refl d.frame
  · exact fillRect_drawing_confined hsvga h
  · simp only [cornerDiscs, Option.bind_eq_bind, Option.bind_eq_some_iff] at h
    obtain ⟨_, -, _, -, _, -, _, -, d₁, h₁, _, -, d₂, h₂, _, -, _, -, _, -, _, -, _, -, _, -, d₃, h₃,
      d₄, h₄, d₅, h₅, h₆⟩ := h
    have hcross := (fillRect_drawing_confined hsvga h₁).trans (fillRect_drawing_confined hsvga h₂)
    exact (((hcross.trans (circle_confined h₃)).trans (circle_confined h₄)).trans
      (circle_confined h₅)).trans (circle_confined h₆)

theorem fillTriangle_confined {x0 y0 x1 y1 x2 y2 : ℤ} {color : UInt32}
    (h : framebufferFillTriangle d x0 y0 x1 y1 x2 y2 color = some d') :
    Confined d.frame d'.frame := by
  unfold framebufferFillTriangle at h
  simp only [Option.bind_eq_bind, Option.bind_eq_some_iff] at h
  obtain ⟨_, -, _, -, area, -, hrows⟩ := h
  refine forUpTo_relates (R := fun d d' : Drawing => Confined d.frame d'.frame)
    (fun d => .refl d.frame) (fun _ _ _ => .trans) (fun y d d' hrow => ?_) hrows
  refine forUpTo_relates (R := fun d d' : Drawing => Confined d.frame d'.frame)
    (fun d => .refl d.frame) (fun _ _ _ => .trans) (fun x d d' hpixel => ?_) hrow
  unfold trianglePixel at hpixel
  simp only [Option.bind_eq_bind, Option.bind_eq_some_iff, Option.some.injEq] at hpixel
  obtain ⟨_, -, _, -, _, -, rfl⟩ := hpixel
  split_ifs
  · exact plot_confined d x y color
  · exact .refl d.frame

theorem putRgba_confined {x y : ℤ} {width height : UInt32} {pixels : Option (List UInt8)}
    (h : framebufferPutRgba st x y width height pixels = some st') : Confined st st' := by
  cases pixels with
  | none => exact Option.some.inj h ▸ .refl st
  | some pixels =>
    unfold framebufferPutRgba at h
    dsimp only at h
    split_ifs at h with hempty
    · exact Option.some.inj h ▸ .refl st
    · refine forRangeM_relates Confined.refl (fun _ _ _ => .trans) (fun row t t' hrow => ?_) h
      refine forRangeM_relates Confined.refl (fun _ _ _ => .trans) (fun column u u' hpixel => ?_) hrow
      unfold putPixel at hpixel
      simp only [Option.bind_eq_bind, Option.bind_eq_some_iff, Option.some.injEq] at hpixel
      obtain ⟨_, -, _, -, _, -, _, -, _, -, _, -, rfl⟩ := hpixel
      exact blendPixel_confined _ _ _ _

end Shapes

/-- The arguments of a call of `framebuffer_blend_pixel`. -/
structure Dot where
  x : ℤ
  y : ℤ
  color : UInt32
  alpha : UInt8

def blendDots (dots : List Dot) (st : FramebufferState) : FramebufferState :=
  dots.foldl (fun st dot => (framebufferBlendPixel st dot.x dot.y dot.color dot.alpha).2) st

/-- The outline fonts draw by blending pixels, whichever ones. -/
def BlendsPixels (fonts : Fonts) : Prop :=
  ∀ st x y text color size st', fonts.drawText st x y text color size = some st' →
    ∃ dots, st' = blendDots dots st

theorem blendDots_confined (dots : List Dot) : Confined st (blendDots dots st) := by
  induction dots generalizing st with
  | nil => exact .refl st
  | cons dot dots ih => exact (blendPixel_confined dot.x dot.y dot.color dot.alpha).trans ih

section Texts

/-- Where the text has been drawn without an overflow so far, it is confined. -/
def TextConfined (st : FramebufferState) (d : TextDrawing) : Prop :=
  ∀ st', d.frame = some st' → Confined st st'

theorem characterPixel_confined (hsvga : FillsAlike svga) {x y : ℤ} {character : UInt8}
    {color scale : UInt32} {row column : ℕ} {d : TextDrawing} (h : TextConfined st d) :
    TextConfined st
      (characterPixel (framebufferFillRect svga) x y character color scale row column d) := by
  unfold characterPixel
  split_ifs
  · split
    · rename_i t left top hframe _ _
      intro st' hfill
      exact (h t hframe).trans (fillRect_confined hsvga hfill)
    · intro st' hnone
      cases hnone
  · exact h

theorem framebufferCharacter_confined (hsvga : FillsAlike svga) {x y : ℤ} {character : UInt8}
    {color scale : UInt32} {d : TextDrawing} (h : TextConfined st d) :
    TextConfined st (framebufferCharacter (framebufferFillRect svga) x y character color scale d) := by
  unfold framebufferCharacter
  refine forRange_invariant (fun _ => TextConfined st) (Nat.zero_le 8) h fun row t _ _ ht => ?_
  exact forRange_invariant (fun _ => TextConfined st) (Nat.zero_le 8) ht
    fun column u _ _ hu => characterPixel_confined hsvga hu

theorem textFrom_confined (hsvga : FillsAlike svga) {originX x y : ℤ} {color scale : UInt32}
    {text : List UInt8} {d : TextDrawing} (h : TextConfined st d) :
    TextConfined st (textFrom (framebufferFillRect svga) originX color scale text x y d) := by
  have hnone (filled : List Rect) : TextConfined st ⟨none, filled⟩ := fun st' h => by cases h
  induction text generalizing x y d with
  | nil => exact h
  | cons character text ih =>
    unfold textFrom
    split_ifs
    · cases checkInt64 (y + 8 * scale.toNat) with
      | none => exact hnone _
      | some y => exact ih h
    · dsimp only
      cases checkInt64 (x + 8 * scale.toNat) with
      | none => exact hnone _
      | some x => exact ih (framebufferCharacter_confined hsvga h)

theorem text_confined (hsvga : FillsAlike svga) (hfonts : BlendsPixels fonts) {x y : ℤ}
    {text : Option (List UInt8)} {color scale : UInt32}
    (h : (framebufferText (framebufferFillRect svga) fonts st x y text color scale).frame =
      some st') : Confined st st' := by
  cases text with
  | none => exact Option.some.inj h ▸ .refl st
  | some text =>
    unfold framebufferText at h
    dsimp only at h
    by_cases hskip : !st.initialized ∨ scale = 0 ∨ scale > 32
    · rw [if_pos hskip] at h
      exact Option.some.inj h ▸ .refl st
    · rw [if_neg hskip] at h
      cases hdrawn : fonts.drawText st x y text color (scale * 8) with
      | none =>
        rw [hdrawn] at h
        have hstart : TextConfined st ⟨some st, []⟩ := fun st' h => Option.some.inj h ▸ .refl st
        exact textFrom_confined hsvga hstart st' h
      | some u =>
        rw [hdrawn] at h
        obtain ⟨dots, rfl⟩ := hfonts _ _ _ _ _ _ _ hdrawn
        exact Option.some.inj h ▸ blendDots_confined dots

end Texts

section Console

theorem consoleClear_confined (hsvga : FillsAlike svga) (background : UInt32) :
    Confined st (consoleClear svga st background) := by
  intro S
  have S' : Screen { st with background := background } := S.of_eq rfl rfl rfl
  obtain ⟨hready, haddress, hinfo, hmemory⟩ := framebufferClear_confined hsvga background S'
  exact ⟨hready, haddress, hinfo, hmemory⟩

theorem copyRowsUp_confined (hh : 16 < st.info.height) : Confined st (copyRowsUp st 16) := by
  intro S
  have hH := S.height_lt
  have hrows : sub64 st.info.height 16 = st.info.height - 16 := sub64_eq hh.le (by omega)
  unfold copyRowsUp
  rw [hrows]
  refine forRange_confined (fun y t hy h => forRange_confined fun x u hx h' => ?_) S
  exact storePixel_confined (by rw [h'.info]; exact h.info ▸ hx) (by rw [h'.info, h.info]; omega) _

theorem consoleScroll_confined (hsvga : SoftwareAlike svga) (h : consoleScroll svga st = some st') :
    Confined st st' := by
  intro S
  unfold consoleScroll at h
  dsimp only [consoleCellHeight_eq] at h
  split_ifs at h with hskip
  · exact Option.some.inj h ▸ Confined.refl st S
  have hh : 16 < st.info.height := by
    by_contra hle
    exact hskip (Or.inr (Nat.le_of_not_lt hle))
  have hcopied : Confined st ((framebufferCopyRect svga st 0 16 0 0 (st.info.width % 2 ^ 32)
      (sub64 st.info.height 16 % 2 ^ 32)).getD (copyRowsUp st 16)) := by
    cases hres : framebufferCopyRect svga st 0 16 0 0 (st.info.width % 2 ^ 32)
        (sub64 st.info.height 16 % 2 ^ 32) with
    | none =>
      rw [Option.getD_none]
      exact copyRowsUp_confined hh
    | some u =>
      unfold framebufferCopyRect at hres
      split_ifs at hres with hguard
      have hacc : framebufferAccelerated svga st = true := by
        by_contra hnot
        exact hguard (by simp [hnot])
      obtain ⟨hwidth, hheight⟩ := hsvga.fills.sides_lt hacc
      rw [sub64_eq hh.le (show st.info.height < 2 ^ 64 by omega), Nat.mod_eq_of_lt hwidth,
        Nat.mod_eq_of_lt (show st.info.height - 16 < _ by omega)] at hres
      rw [Option.getD_some, hsvga.copies st u hres]
      exact copyRowsUp_confined hh
  obtain ⟨u, hu, rfl⟩ := Option.map_eq_some_iff.mp h
  obtain ⟨hready, haddress, hinfo, hmemory⟩ := hcopied.trans (fillRect_confined hsvga.fills hu) S
  split_ifs
  · exact ⟨hready, haddress, hinfo, hmemory⟩
  · exact ⟨hready, haddress, hinfo, hmemory⟩

theorem fillCell_confined (hsvga : FillsAlike svga) {column row : ℕ} {color : UInt32}
    (h : fillCell svga st column row color = some st') : Confined st st' :=
  fillRect_confined hsvga h

theorem consoleCharacter_confined (hsvga : FillsAlike svga) {column row : ℕ} {character : UInt8}
    (h : consoleCharacter svga st column row character = some st') : Confined st st' := by
  unfold consoleCharacter at h
  obtain ⟨t, ht, h⟩ := Option.bind_eq_some_iff.mp h
  refine (fillCell_confined hsvga ht).trans ?_
  refine forRangeM_relates Confined.refl (fun _ _ _ => .trans) (fun glyphY u u' hrow => ?_) h
  refine forRangeM_relates Confined.refl (fun _ _ _ => .trans) (fun glyphX v v' hpixel => ?_) hrow
  unfold fillGlyphPixel at hpixel
  split_ifs at hpixel
  · obtain ⟨x, -, hpixel⟩ := Option.bind_eq_some_iff.mp hpixel
    obtain ⟨y, -, hfill⟩ := Option.bind_eq_some_iff.mp hpixel
    exact fillRect_confined hsvga hfill
  · exact Option.some.inj hpixel ▸ .refl v

/-- The cursor and the colours are not part of the picture. -/
theorem moved_confined (column row : ℕ) (foreground background : UInt32) :
    Confined st
      { st with
        cursorColumn := column
        cursorRow := row
        foreground := foreground
        background := background } := fun _ => ⟨rfl, rfl, rfl, fun _ _ => rfl⟩

theorem consoleByte_confined (hsvga : SoftwareAlike svga) {columns rows : ℕ} {character : UInt8}
    (h : consoleByte svga st columns rows character = some st') : Confined st st' := by
  have hscroll : ∀ t, Confined st t →
      (if t.cursorRow ≥ rows then consoleScroll svga t else some t) = some st' →
      Confined st st' := by
    intro t ht h
    split_ifs at h
    · exact ht.trans (consoleScroll_confined hsvga h)
    · exact Option.some.inj h ▸ ht
  unfold consoleByte at h
  split_ifs at h with hback hreturn hnewline
  · have hstep : Confined st (stepBack st columns) := by
      unfold stepBack
      split_ifs
      · exact moved_confined (st.cursorColumn - 1) st.cursorRow st.foreground st.background
      · exact moved_confined (columns - 1) (st.cursorRow - 1) st.foreground st.background
      · exact .refl st
    exact hstep.trans (fillCell_confined hsvga.fills h)
  · exact Option.some.inj h ▸ moved_confined _ _ _ _
  · exact hscroll (nextLine st) (moved_confined _ _ _ _) h
  · obtain ⟨t, ht, h⟩ := Option.bind_eq_some_iff.mp h
    obtain ⟨u, hu, rfl⟩ := Option.map_eq_some_iff.mp ht
    have hput := consoleCharacter_confined hsvga.fills hu
    refine hscroll _ (hput.trans ?_) h
    dsimp only
    split_ifs
    · exact moved_confined _ _ _ _
    · exact moved_confined _ _ _ _

theorem consoleWriteN_confined (hsvga : SoftwareAlike svga) {text : Option (List UInt8)}
    (h : consoleWriteN svga st text = some st') : Confined st st' := by
  cases text with
  | none => exact Option.some.inj h ▸ .refl st
  | some text =>
    unfold consoleWriteN at h
    dsimp only at h
    split_ifs at h with hready
    · exact Option.some.inj h ▸ .refl st
    · generalize st.info.width / consoleCellWidth = columns at h
      generalize st.info.height / consoleCellHeight = rows at h
      clear hready
      induction text generalizing st with
      | nil => exact Option.some.inj h ▸ .refl st
      | cons b text ih =>
        rw [List.foldlM_cons] at h
        obtain ⟨t, ht, htail⟩ := Option.bind_eq_some_iff.mp h
        exact (consoleByte_confined hsvga ht).trans (ih htail)

theorem setCursorVisible_confined (hsvga : FillsAlike svga) {visible : Bool}
    (h : consoleSetCursorVisible svga st visible = some st') : Confined st st' := by
  unfold consoleSetCursorVisible at h
  split_ifs at h
  · exact Option.some.inj h ▸ .refl st
  · exact fillCell_confined hsvga h
  · exact fillCell_confined hsvga h

end Console

/-- The calls that draw or change what is drawn with, whatever their arguments. -/
inductive GraphicsCall where
  | clear (color : UInt32)
  | setPixel (x y : ℤ) (color : UInt32)
  | blendPixel (x y : ℤ) (color : UInt32) (alpha : UInt8)
  | fillRect (x y width height : ℤ) (color : UInt32)
  | strokeRect (x y width height : ℤ) (color thickness : UInt32)
  | line (x0 y0 x1 y1 : ℤ) (color : UInt32)
  | circle (centerX centerY radius : ℤ) (color : UInt32) (filled : Bool)
  | fillRoundedRect (x y width height radius : ℤ) (color : UInt32)
  | fillTriangle (x0 y0 x1 y1 x2 y2 : ℤ) (color : UInt32)
  | putRgba (x y : ℤ) (width height : UInt32) (pixels : Option (List UInt8))
  | drawText (x y : ℤ) (text : Option (List UInt8)) (color scale : UInt32)
  | consoleClear (background : UInt32)
  | consoleSetColors (foreground background : UInt32)
  | consoleSetCursor (column row : ℕ)
  | consoleSetCursorVisible (visible : Bool)
  | consoleWrite (text : Option (List UInt8))

/-- A call with a signed overflow has no result. -/
def GraphicsCall.perform (svga : Svga) (fonts : Fonts) (st : FramebufferState) :
    GraphicsCall → Option FramebufferState
  | .clear color => some (framebufferClear svga st color)
  | .setPixel x y color => some (framebufferSetPixel st x y color).2
  | .blendPixel x y color alpha => some (framebufferBlendPixel st x y color alpha).2
  | .fillRect x y width height color => framebufferFillRect svga st x y width height color
  | .strokeRect x y width height color thickness =>
    framebufferStrokeRect svga st x y width height color thickness
  | .line x0 y0 x1 y1 color => (framebufferLine ⟨st, []⟩ x0 y0 x1 y1 color).map Drawing.frame
  | .circle centerX centerY radius color filled =>
    (framebufferCircle ⟨st, []⟩ centerX centerY radius color filled).map Drawing.frame
  | .fillRoundedRect x y width height radius color =>
    (framebufferFillRoundedRect svga ⟨st, []⟩ x y width height radius color).map Drawing.frame
  | .fillTriangle x0 y0 x1 y1 x2 y2 color =>
    (framebufferFillTriangle ⟨st, []⟩ x0 y0 x1 y1 x2 y2 color).map Drawing.frame
  | .putRgba x y width height pixels => framebufferPutRgba st x y width height pixels
  | .drawText x y text color scale =>
    (framebufferText (framebufferFillRect svga) fonts st x y text color scale).frame
  | .consoleClear background => some (ConsoleModel.consoleClear svga st background)
  | .consoleSetColors foreground background =>
    some (ConsoleModel.consoleSetColors st foreground background)
  | .consoleSetCursor column row => some (ConsoleModel.consoleSetCursor st column row)
  | .consoleSetCursorVisible visible => ConsoleModel.consoleSetCursorVisible svga st visible
  | .consoleWrite text => consoleWriteN svga st text

section Runs

theorem perform_confined (hsvga : SoftwareAlike svga) (hfonts : BlendsPixels fonts)
    {call : GraphicsCall} (h : call.perform svga fonts st = some st') : Confined st st' := by
  have hfills := hsvga.fills
  cases call with
  | clear color => exact Option.some.inj h ▸ framebufferClear_confined hfills color
  | setPixel x y color => exact Option.some.inj h ▸ setPixel_confined x y color
  | blendPixel x y color alpha => exact Option.some.inj h ▸ blendPixel_confined x y color alpha
  | fillRect x y width height color => exact fillRect_confined hfills h
  | strokeRect x y width height color thickness => exact strokeRect_confined hfills h
  | line x0 y0 x1 y1 color =>
    obtain ⟨d, hd, rfl⟩ := Option.map_eq_some_iff.mp h
    exact line_confined hd
  | circle centerX centerY radius color filled =>
    obtain ⟨d, hd, rfl⟩ := Option.map_eq_some_iff.mp h
    exact circle_confined hd
  | fillRoundedRect x y width height radius color =>
    obtain ⟨d, hd, rfl⟩ := Option.map_eq_some_iff.mp h
    exact roundedRect_confined hfills hd
  | fillTriangle x0 y0 x1 y1 x2 y2 color =>
    obtain ⟨d, hd, rfl⟩ := Option.map_eq_some_iff.mp h
    exact fillTriangle_confined hd
  | putRgba x y width height pixels => exact putRgba_confined h
  | drawText x y text color scale => exact text_confined hfills hfonts h
  | consoleClear background => exact Option.some.inj h ▸ consoleClear_confined hfills background
  | consoleSetColors foreground background => exact Option.some.inj h ▸ moved_confined _ _ _ _
  | consoleSetCursor column row => exact Option.some.inj h ▸ moved_confined _ _ _ _
  | consoleSetCursorVisible visible => exact setCursorVisible_confined hfills h
  | consoleWrite text => exact consoleWriteN_confined hsvga h

/-- After any calls with any arguments the screen lies where it lay, and every byte of memory that
is not part of one of its pixels is what it was. -/
theorem run_confined (hsvga : SoftwareAlike svga) (hfonts : BlendsPixels fonts) (S : Screen st)
    {calls : List GraphicsCall}
    (hrun : Run (fun st call st' => GraphicsCall.perform svga fonts st call = some st') st calls st') :
    Screen st' ∧ st'.address = st.address ∧ st'.info = st.info ∧
      ∀ a, ¬PixelByte st a → st'.memory a = st.memory a := by
  have hconfined : Confined st st' := hrun.invariant (Confined st)
    (fun _ _ _ h hstep => h.trans (perform_confined hsvga hfonts hstep)) (.refl st)
  have hplace := hconfined S
  exact ⟨hplace.screen S, hplace.address, hplace.info, hplace.memory⟩

/-- An outline font that knows the full stop only: a grey pixel on the line below the origin. -/
def stopFonts : Fonts where
  drawText st x y text color size :=
    if text = [chr '.'] ∧ size = 8 then some (blendDots [⟨x + 1, y + 7, color, 160⟩] st) else none
  measureText _ _ := none

theorem stopFonts_blendsPixels : BlendsPixels stopFonts := by
  intro st x y text color size st' h
  unfold stopFonts at h
  dsimp only at h
  split_ifs at h
  exact ⟨_, (Option.some.inj h).symm⟩

/-- A pixel left of the screen, a rectangle that leaves it on the right, a full stop, a letter of
the bitmap font and new colours. -/
theorem run_confined_smallScreen : ∃ st',
    Run (fun st call st' => GraphicsCall.perform Svga.absent stopFonts st call = some st') smallScreen
      [.setPixel (-1) 20 7, .fillRect 3 4 100 2 5, .drawText 2 0 (some [chr '.']) 9 1,
        .drawText 4 0 (some [chr 'A']) 9 1, .consoleSetColors 1 2] st' ∧
    Screen st' ∧ st'.address = smallScreen.address ∧ st'.info = smallScreen.info ∧
      ∀ a, ¬PixelByte smallScreen a → st'.memory a = smallScreen.memory a := by
  have hrun : ∃ st', Run (fun st call st' => GraphicsCall.perform Svga.absent stopFonts st call =
      some st') smallScreen
      [.setPixel (-1) 20 7, .fillRect 3 4 100 2 5, .drawText 2 0 (some [chr '.']) 9 1,
        .drawText 4 0 (some [chr 'A']) 9 1, .consoleSetColors 1 2] st' :=
    ⟨_, .cons rfl (.cons rfl (.cons rfl (.cons rfl (.cons rfl (.nil _)))))⟩
  exact hrun.imp fun st' h =>
    ⟨h, run_confined softwareAlike_absent stopFonts_blendsPixels smallScreen_screen h⟩

end Runs

end JsOs.ScreenConfinement

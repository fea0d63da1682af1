import JsOs.PixelBlending

/-!
# `framebuffer_put_rgba`

Every pixel of the image is blended once. An edit says what becomes of each pixel of the screen,
and edits of one pixel after the other are composed.
-/

namespace JsOs.ImageBlits

open CountedLoops MachineWords FramebufferModel FramebufferPainting DrawingModel BlendingModel
open PixelStores PixelBlending

/-- `st'` is `st` with `f` applied to each pixel of the screen. -/
structure Edits (f : ℕ → ℕ → UInt32 → UInt32) (st st' : FramebufferState) : Prop where
  frame : SameFrame st st'
  pixel_eq : ∀ px py, px < st.info.width → py < st.info.height →
    pixel st' px py = f px py (pixel st px py)

namespace Edits

variable {st st' st'' : FramebufferState} {f g : ℕ → ℕ → UInt32 → UInt32}

theorem refl (st : FramebufferState) : Edits (fun _ _ c => c) st st :=
  ⟨.refl st, fun _ _ _ _ => rfl⟩

theorem trans (E : Edits f st st') (E' : Edits g st' st'') :
    Edits (fun px py c => g px py (f px py c)) st st'' := by
  refine ⟨E.frame.trans E'.frame, fun px py hpx hpy => ?_⟩
  have hinfo := E.frame.info_eq
  rw [E'.pixel_eq px py (hinfo ▸ hpx) (hinfo ▸ hpy), E.pixel_eq px py hpx hpy]

theorem congr (E : Edits f st st') (h : ∀ px py, px < st.info.width → py < st.info.height →
    ∀ c, f px py c = g px py c) : Edits g st st' :=
  ⟨E.frame, fun px py hpx hpy => (E.pixel_eq px py hpx hpy).trans (h px py hpx hpy _)⟩

end Edits

section Blend

variable {st : FramebufferState} {x y : ℤ} {color : UInt32} {alpha : UInt8}

theorem blendPixel_off (hready : st.initialized = true) (h : ¬OnScreen st.info x y) :
    framebufferBlendPixel st x y color alpha = (false, st) := by
  unfold framebufferBlendPixel framebufferGetPixel
  rw [if_pos ((onScreen_guard hready).mpr h)]

/-- `framebuffer_blend_pixel` edits the one pixel, if it is on the screen. -/
theorem blendPixel_edits (S : Screen st) (x y : ℤ) (color : UInt32) (alpha : UInt8) :
    Edits (fun px py c => if (px : ℤ) = x ∧ (py : ℤ) = y then blended st.info color alpha c else c)
      st (framebufferBlendPixel st x y color alpha).2 := by
  by_cases hon : OnScreen st.info x y
  · have hstore : ∀ c, blended st.info color alpha (pixel st x.toNat y.toNat) = c →
        Edits (fun px py old => if (px : ℤ) = x ∧ (py : ℤ) = y then blended st.info color alpha old
          else old) st (framebufferSetPixel st x y c).2 := by
      intro c hc
      obtain ⟨hx, hx', hy, hy'⟩ := hon
      rw [framebufferSetPixel_on S.initialized ⟨hx, hx', hy, hy'⟩]
      refine ⟨rfl, fun px py hpx hpy => ?_⟩
      by_cases hat : (px : ℤ) = x ∧ (py : ℤ) = y
      · obtain ⟨rfl, rfl⟩ := hat
        simp only [Int.toNat_natCast] at hc ⊢
        rw [if_pos ⟨trivial, trivial⟩, hc]
        exact pixel_storePixel_same
      · rw [if_neg hat]
        exact S.pixel_storePixel_of_ne (by omega) (by omega) hpx hpy (by omega)
    unfold framebufferBlendPixel
    rw [framebufferGetPixel_on S.initialized hon]
    dsimp only
    split_ifs with hzero hfull
    · exact (Edits.refl st).congr fun px py _ _ c => by simp [blended, hzero]
    · exact hstore color (by rw [blended, if_neg hzero, if_pos hfull])
    · exact hstore _ (by rw [blended, if_neg hzero, if_neg hfull])
  · rw [blendPixel_off S.initialized hon]
    refine (Edits.refl st).congr fun px py hpx hpy c => (if_neg ?_).symm
    rintro ⟨rfl, rfl⟩
    exact hon (onScreen_natCast.mpr ⟨hpx, hpy⟩)

end Blend

section Images

variable {st : FramebufferState} {x y : ℤ} {pixels : List UInt8} {w h row column : ℕ}

/-- The first of the four bytes of a source pixel. -/
def sourceOffset (w row column : ℕ) : ℕ := (row * w + column) * 4

/-- What `color` blended with the source pixel of `row` and `column` is. -/
def blendSource (info : FramebufferInfo) (pixels : List UInt8) (w row column : ℕ)
    (old : UInt32) : UInt32 :=
  let byte := fun i => pixels.getD (sourceOffset w row column + i) 0
  blended info (framebufferRgb info (byte 0) (byte 1) (byte 2)) (byte 3) old

theorem sourceOffset_lt (hrow : row < h) (hcolumn : column < w) (hlength : w * h * 4 ≤ pixels.length) :
    sourceOffset w row column + 3 < pixels.length := by
  have hrows : (row + 1) * w ≤ h * w := Nat.mul_le_mul_right w hrow
  rw [Nat.succ_mul] at hrows
  rw [Nat.mul_comm w h] at hlength
  unfold sourceOffset
  omega

theorem putPixel_eq (hoffset : sourceOffset w row column + 3 < pixels.length)
    (hlength : pixels.length < 2 ^ 64) (hx : -2 ^ 63 ≤ x + column ∧ x + column < 2 ^ 63)
    (hy : -2 ^ 63 ≤ y + row ∧ y + row < 2 ^ 63) :
    ∃ color alpha, putPixel x y w pixels row column st =
        some (framebufferBlendPixel st (x + column) (y + row) color alpha).2 ∧
      blended st.info color alpha = blendSource st.info pixels w row column := by
  have hbyte : ∀ i, i ≤ 3 → pixels[add64 (sourceOffset w row column) i]? =
      some (pixels.getD (sourceOffset w row column + i) 0) := by
    intro i hi
    have hlt : sourceOffset w row column + i < pixels.length := by omega
    rw [add64_eq (by omega), List.getElem?_eq_getElem hlt, List.getD_eq_getElem _ _ hlt]
  have hbase : mul64 (add64 (mul64 row w) column) 4 = sourceOffset w row column := by
    unfold sourceOffset at hoffset ⊢
    rw [mul64_eq (show row * w < 2 ^ 64 by omega), add64_eq (by omega), mul64_eq (by omega)]
  have hfirst := hbyte 0 (by omega)
  rw [add64_eq (by omega), Nat.add_zero] at hfirst
  unfold putPixel
  rw [hbase]
  dsimp only
  rw [hfirst, hbyte 1 (by omega), hbyte 2 (by omega), hbyte 3 (by omega),
    checkInt64_of_lt hx.1 hx.2, checkInt64_of_lt hy.1 hy.2]
  exact ⟨_, _, rfl, rfl⟩

/-- One row of the image, its first `n` pixels. -/
theorem putRow_edits (S : Screen st) (hn : ∀ column < w, sourceOffset w row column + 3 < pixels.length)
    (hlength : pixels.length < 2 ^ 64) (hx : -2 ^ 63 ≤ x ∧ x + w < 2 ^ 63)
    (hy : -2 ^ 63 ≤ y + row ∧ y + row < 2 ^ 63) :
    ∃ st', forRangeM 0 w (fun column => putPixel x y w pixels row column) st = some st' ∧
      Edits (fun px py old => if (py : ℤ) = y + row ∧ x ≤ px ∧ (px : ℤ) < x + w then
        blendSource st.info pixels w row (px - x).toNat old else old) st st' := by
  refine forRangeM_invariant (fun n t =>
    Edits (fun px py old => if (py : ℤ) = y + row ∧ x ≤ px ∧ (px : ℤ) < x + n then
      blendSource st.info pixels w row (px - x).toNat old else old) st t) (Nat.zero_le w) ?_ ?_
  · refine (Edits.refl st).congr fun px py _ _ old => (if_neg ?_).symm
    omega
  · intro column t _ hlt E
    have hinfo := E.frame.info_eq
    obtain ⟨color, alpha, heq, hblend⟩ := @putPixel_eq t x y pixels w row column (hn column hlt)
      hlength (by omega) hy
    refine ⟨_, heq, ?_⟩
    have hstep := E.trans (blendPixel_edits (S.congr E.frame) (x + column) (y + row) color alpha)
    rw [hblend, hinfo] at hstep
    refine hstep.congr fun px py _ _ old => ?_
    -- the new pixel is none of those before it
    by_cases hat : (px : ℤ) = x + column ∧ (py : ℤ) = y + row
    · have hcolumn : ((px : ℤ) - x).toNat = column := by omega
      rw [if_pos hat, if_neg (by omega), if_pos (by omega), hcolumn]
    · rw [if_neg hat]
      split_ifs <;> first | rfl | omega

/-- All rows. -/
theorem putRows_edits (S : Screen st) (hbytes : w * h * 4 ≤ pixels.length)
    (hlength : pixels.length < 2 ^ 64) (hx : -2 ^ 63 ≤ x ∧ x + w < 2 ^ 63)
    (hy : -2 ^ 63 ≤ y ∧ y + h < 2 ^ 63) :
    ∃ st', forRangeM 0 h (fun row =>
        forRangeM 0 w fun column => putPixel x y w pixels row column) st = some st' ∧
      Edits (fun px py old => if y ≤ py ∧ (py : ℤ) < y + h ∧ x ≤ px ∧ (px : ℤ) < x + w then
        blendSource st.info pixels w (py - y).toNat (px - x).toNat old else old) st st' := by
  refine forRangeM_invariant (fun n t =>
    Edits (fun px py old => if y ≤ py ∧ (py : ℤ) < y + n ∧ x ≤ px ∧ (px : ℤ) < x + w then
      blendSource st.info pixels w (py - y).toNat (px - x).toNat old else old) st t)
    (Nat.zero_le h) ?_ ?_
  · refine (Edits.refl st).congr fun px py _ _ old => (if_neg ?_).symm
    omega
  · intro row t _ hlt E
    have hinfo := E.frame.info_eq
    obtain ⟨t', heq, E'⟩ := putRow_edits (S.congr E.frame)
      (fun column hcolumn => sourceOffset_lt hlt hcolumn hbytes) hlength hx
      (show -2 ^ 63 ≤ y + row ∧ y + row < 2 ^ 63 by omega)
    refine ⟨t', heq, ?_⟩
    rw [hinfo] at E'
    refine (E.trans E').congr fun px py _ _ old => ?_
    by_cases hat : (py : ℤ) = y + row ∧ x ≤ px ∧ (px : ℤ) < x + w
    · have hrow : ((py : ℤ) - y).toNat = row := by omega
      rw [if_pos hat, if_neg (by omega), if_pos (by omega), hrow]
    · rw [if_neg hat]
      split_ifs <;> first | rfl | omega

/-- The arguments of an image that is not drawn, in unbounded numbers. -/
def NoImage (width height : UInt32) (pixels : Option (List UInt8)) : Prop :=
  pixels = none ∨ width = 0 ∨ height = 0 ∨
    ∃ bytes ∈ pixels, bytes.length < width.toNat * height.toNat * 4

/-- What an image makes of the screen: on its area each pixel is blended with its source pixel, from
the old value, and nothing else changes. -/
def ImageEdit (info : FramebufferInfo) (x y : ℤ) (width height : UInt32) (bytes : List UInt8)
    (px py : ℕ) (old : UInt32) : UInt32 :=
  if 0 ≤ py - y ∧ py - y < height.toNat ∧ 0 ≤ px - x ∧ px - x < width.toNat then
    blendSource info bytes width.toNat (py - y).toNat (px - x).toNat old
  else old

/-- The product of the sides does not wrap. -/
theorem framebufferPutRgba_some (width height : UInt32) (bytes : List UInt8) :
    framebufferPutRgba st x y width height (some bytes) =
      if width = 0 ∨ height = 0 ∨ bytes.length < width.toNat * height.toNat * 4 then some st
      else
        forRangeM 0 height.toNat (fun row =>
          forRangeM 0 width.toNat fun column => putPixel x y width.toNat bytes row column) st := by
  have harea : width.toNat * height.toNat < 2 ^ 32 * 2 ^ 32 :=
    Nat.mul_lt_mul'' width.toNat_lt height.toNat_lt
  have htest : mul64 width.toNat height.toNat > bytes.length / 4 ↔
      bytes.length < width.toNat * height.toNat * 4 := by
    rw [mul64_eq harea]
    omega
  unfold framebufferPutRgba
  simp only [htest]

theorem framebufferPutRgba_noImage {width height : UInt32} {pixels : Option (List UInt8)}
    (h : NoImage width height pixels) : framebufferPutRgba st x y width height pixels = some st := by
  cases pixels with
  | none => rfl
  | some bytes =>
    rw [framebufferPutRgba_some, if_pos]
    unfold NoImage at h
    simpa only [reduceCtorEq, Option.mem_def, Option.some.injEq, exists_eq_left', false_or] using h

/-- `framebuffer_put_rgba` either leaves the screen alone, because an argument is empty or the bytes
are too few, or reads inside of the array only and blends each pixel of the area once. -/
theorem framebufferPutRgba_blits (S : Screen st) (hx : |x| < 2 ^ 62) (hy : |y| < 2 ^ 62)
    (width height : UInt32) (pixels : Option (List UInt8))
    (hlength : ∀ bytes ∈ pixels, bytes.length < 2 ^ 64) :
    (NoImage width height pixels ∧ framebufferPutRgba st x y width height pixels = some st) ∨
    ∃ bytes ∈ pixels, 0 < width.toNat ∧ 0 < height.toNat ∧
      width.toNat * height.toNat * 4 ≤ bytes.length ∧
      (∀ row < height.toNat, ∀ column < width.toNat,
        sourceOffset width.toNat row column + 3 < bytes.length) ∧
      ∃ st', framebufferPutRgba st x y width height pixels = some st' ∧
        Edits (ImageEdit st.info x y width height bytes) st st' := by
  by_cases hnone : NoImage width height pixels
  · exact Or.inl ⟨hnone, framebufferPutRgba_noImage hnone⟩
  · right
    rw [abs_lt] at hx hy
    obtain ⟨hnull, hwidth, hheight, hbytes⟩ :
        pixels ≠ none ∧ width ≠ 0 ∧ height ≠ 0 ∧
          ∀ bytes ∈ pixels, width.toNat * height.toNat * 4 ≤ bytes.length := by
      simpa [NoImage] using hnone
    obtain ⟨bytes, rfl⟩ := Option.ne_none_iff_exists'.mp hnull
    have hfits := hbytes bytes rfl
    have hw := width.toNat_lt
    have hh := height.toNat_lt
    have hw' : width.toNat ≠ 0 := fun h => hwidth (UInt32.toNat_inj.mp h)
    have hh' : height.toNat ≠ 0 := fun h => hheight (UInt32.toNat_inj.mp h)
    obtain ⟨st', heq, E⟩ := putRows_edits S hfits (hlength bytes rfl)
      (show -2 ^ 63 ≤ x ∧ x + width.toNat < 2 ^ 63 by omega)
      (show -2 ^ 63 ≤ y ∧ y + height.toNat < 2 ^ 63 by omega)
    refine ⟨bytes, rfl, Nat.pos_of_ne_zero hw', Nat.pos_of_ne_zero hh', hfits,
      fun row hrow column hcolumn => sourceOffset_lt hrow hcolumn hfits, st', ?_, ?_⟩
    · rw [framebufferPutRgba_some, if_neg]
      · exact heq
      · simp only [hwidth, hheight, false_or, not_lt]
        exact hfits
    · refine E.congr fun px py _ _ old => ?_
      unfold ImageEdit
      refine if_congr ?_ rfl rfl
      omega

/-- Two pixels, the first of them half transparent, the second at the right border. -/
def twoPixels : List UInt8 := [255, 0, 0, 128, 0, 255, 0, 255]

theorem framebufferPutRgba_blits_twoPixels :
    (NoImage 2 1 (some twoPixels) ∧
      framebufferPutRgba smallScreen 14 3 2 1 (some twoPixels) = some smallScreen) ∨
    ∃ bytes ∈ some twoPixels, 0 < (2 : UInt32).toNat ∧ 0 < (1 : UInt32).toNat ∧
      (2 : UInt32).toNat * (1 : UInt32).toNat * 4 ≤ bytes.length ∧
      (∀ row < (1 : UInt32).toNat, ∀ column < (2 : UInt32).toNat,
        sourceOffset (2 : UInt32).toNat row column + 3 < bytes.length) ∧
      ∃ st', framebufferPutRgba smallScreen 14 3 2 1 (some twoPixels) = some st' ∧
        Edits (ImageEdit smallScreen.info 14 3 2 1 bytes) smallScreen st' :=
  framebufferPutRgba_blits smallScreen_screen (by decide) (by decide) 2 1 (some twoPixels)
    (fun bytes hbytes => by
      obtain rfl := Option.some.inj hbytes
      decide)

end Images

end JsOs.ImageBlits

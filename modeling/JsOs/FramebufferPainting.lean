import JsOs.FramebufferModel
import Mathlib.Data.Int.Order.Basic

/-!
# Painting rectangles

On a screen whose rows lie apart in memory, storing one pixel changes no other. A rectangle that
does not start left of or above the screen is painted exactly; one that does makes `clip_axis`
overflow before anything is painted.
-/

namespace JsOs.FramebufferPainting

open CountedLoops ByteMemory MachineWords FramebufferModel

/-- What `framebuffer_init` accepts, with all pixels in the address space. -/
structure Screen (st : FramebufferState) : Prop where
  initialized : st.initialized = true
  width_pos : 0 < st.info.width
  height_pos : 0 < st.info.height
  pitch_ge : 4 * st.info.width ≤ st.info.pitch
  fits : st.address + st.info.height * st.info.pitch < 2 ^ 64

/-- `st'` is `st` with other bytes in memory. -/
def SameFrame (st st' : FramebufferState) : Prop := st' = { st with memory := st'.memory }

/-- `st'` differs from `st` in the pixels of `area`, which are `color` now. -/
structure Paints (area : ℕ → ℕ → Prop) (color : UInt32) (st st' : FramebufferState) : Prop where
  frame : SameFrame st st'
  inside : ∀ x y, x < st.info.width → y < st.info.height → area x y → pixel st' x y = color
  outside : ∀ x y, x < st.info.width → y < st.info.height → ¬area x y →
    pixel st' x y = pixel st x y

section Words

variable {m : Memory} {a b v : ℕ}

/-- The words at `a` and `b` share no byte. -/
def WordsApart (a b : ℕ) : Prop := 4 ≤ sub64 b a ∧ 4 ≤ sub64 a b

theorem loadWord_storeWord_same (ha : a < 2 ^ 64) :
    loadWord (storeWord m a v) a = v % 2 ^ 32 := by
  refine load_of_bytes fun i hi => ?_
  obtain ⟨haddress, hoffset⟩ : add64 a (0 + i) < 2 ^ 64 ∧ sub64 (add64 a (0 + i)) a = i := by
    unfold add64 sub64
    omega
  rw [storeWord, hoffset, if_pos ⟨haddress, hi⟩]
  exact UInt8.toNat_ofNat'

theorem loadWord_storeWord_apart (ha : a < 2 ^ 64) (hb : b < 2 ^ 64) (h : WordsApart a b) :
    loadWord (storeWord m a v) b = loadWord m b := by
  refine load_congr fun i hi => ?_
  have hbyte : ¬(add64 b (0 + i) < 2 ^ 64 ∧ sub64 (add64 b (0 + i)) a < 4) := by
    unfold WordsApart at h
    unfold sub64 at h ⊢
    unfold add64
    omega
  rw [storeWord, if_neg hbyte]

end Words

section Pixels

variable {st st' st'' : FramebufferState} {x y px py : ℕ} {color : UInt32}

theorem SameFrame.refl (st : FramebufferState) : SameFrame st st := rfl

theorem SameFrame.trans (h : SameFrame st st') (h' : SameFrame st' st'') : SameFrame st st'' := by
  unfold SameFrame at *
  rw [h', h]

theorem SameFrame.info_eq (h : SameFrame st st') : st'.info = st.info := by rw [h]

/-- The cursor, the colours and the bytes in memory do not matter. -/
theorem Screen.of_eq (S : Screen st) (hready : st'.initialized = st.initialized)
    (haddress : st'.address = st.address) (hinfo : st'.info = st.info) : Screen st' := by
  obtain ⟨hinit, hwidth, hheight, hpitch, hfits⟩ := S
  rw [← hready] at hinit
  rw [← haddress, ← hinfo] at hfits
  rw [← hinfo] at hwidth hheight hpitch
  exact ⟨hinit, hwidth, hheight, hpitch, hfits⟩

theorem Screen.congr (S : Screen st) (h : SameFrame st st') : Screen st' := by
  rw [h]
  exact S.of_eq rfl rfl rfl

/-- `framebuffer_init` makes a screen, unless the test of the pitch wraps. -/
theorem screen_of_init {framebuffer : LimineFramebuffer}
    (hinit : (framebufferInit st (some framebuffer)).1 = true)
    (hwidth : framebuffer.width < 2 ^ 62)
    (hfits : framebuffer.address + framebuffer.height * framebuffer.pitch < 2 ^ 64) :
    Screen (framebufferInit st (some framebuffer)).2 := by
  by_cases hbad : framebuffer.address = 0 ∨ framebuffer.memoryModel ≠ limineFramebufferRgb ∨
      framebuffer.bpp ≠ 32 ∨ framebuffer.width = 0 ∨ framebuffer.height = 0 ∨
      framebuffer.pitch < mul64 framebuffer.width 4
  · simp [framebufferInit, hbad] at hinit
  · rw [mul64_eq (by omega)] at hbad
    simp only [framebufferInit, mul64_eq (show framebuffer.width * 4 < 2 ^ 64 by omega), if_neg hbad]
    exact ⟨rfl, by dsimp only; omega, by dsimp only; omega, by dsimp only; omega, hfits⟩

theorem Screen.width_lt (S : Screen st) : st.info.width < 2 ^ 62 := by
  have hfits := S.fits
  have hrow : 1 * st.info.pitch ≤ st.info.height * st.info.pitch :=
    Nat.mul_le_mul_right _ S.height_pos
  have hpitch := S.pitch_ge
  omega

theorem Screen.height_lt (S : Screen st) : st.info.height < 2 ^ 62 := by
  have hfits := S.fits
  have hpitch := S.pitch_ge
  have hpos := S.width_pos
  have hcolumn : st.info.height * 4 ≤ st.info.height * st.info.pitch :=
    Nat.mul_le_mul_left _ (by omega)
  omega

theorem Screen.pixelAddress_eq (S : Screen st) (hx : x < st.info.width) (hy : y < st.info.height) :
    pixelAddress st x y = st.address + y * st.info.pitch + x * 4 ∧
      y * st.info.pitch + x * 4 + 4 ≤ (y + 1) * st.info.pitch ∧
      (y + 1) * st.info.pitch ≤ st.info.height * st.info.pitch := by
  have hrow : (y + 1) * st.info.pitch ≤ st.info.height * st.info.pitch :=
    Nat.mul_le_mul_right _ hy
  have hpitch := S.pitch_ge
  have hfits := S.fits
  rw [Nat.succ_mul] at hrow ⊢
  unfold pixelAddress
  rw [mul64_eq (show y * st.info.pitch < 2 ^ 64 by omega), mul64_eq (show x * 4 < 2 ^ 64 by omega),
    add64_eq (show st.address + y * st.info.pitch < 2 ^ 64 by omega), add64_eq (by omega)]
  omega

theorem pixelAddress_lt (st : FramebufferState) (x y : ℕ) : pixelAddress st x y < 2 ^ 64 :=
  Nat.mod_lt _ (by decide)

/-- Two pixels of a screen share no byte. -/
theorem Screen.pixels_apart (S : Screen st) (hx : x < st.info.width) (hy : y < st.info.height)
    (hpx : px < st.info.width) (hpy : py < st.info.height) (hne : ¬(px = x ∧ py = y)) :
    WordsApart (pixelAddress st x y) (pixelAddress st px py) := by
  obtain ⟨h₁, h₁', h₁''⟩ := S.pixelAddress_eq hx hy
  obtain ⟨h₂, h₂', h₂''⟩ := S.pixelAddress_eq hpx hpy
  have hfits := S.fits
  have hapart : pixelAddress st x y + 4 ≤ pixelAddress st px py ∨
      pixelAddress st px py + 4 ≤ pixelAddress st x y := by
    rw [h₁, h₂]
    rcases Nat.lt_trichotomy y py with hlt | rfl | hlt
    · have hrow : (y + 1) * st.info.pitch ≤ py * st.info.pitch := Nat.mul_le_mul_right _ hlt
      omega
    · omega
    · have hrow : (py + 1) * st.info.pitch ≤ y * st.info.pitch := Nat.mul_le_mul_right _ hlt
      omega
  unfold WordsApart sub64
  omega

theorem pixel_storePixel_same : pixel (storePixel st x y color) x y = color := by
  have hload := loadWord_storeWord_same (m := st.memory) (v := color.toNat)
    (pixelAddress_lt st x y)
  rw [Nat.mod_eq_of_lt color.toNat_lt] at hload
  change UInt32.ofNat (loadWord (storeWord st.memory (pixelAddress st x y) color.toNat)
    (pixelAddress st x y)) = color
  rw [hload, UInt32.ofNat_toNat]

theorem pixel_storePixel_apart (h : WordsApart (pixelAddress st x y) (pixelAddress st px py)) :
    pixel (storePixel st x y color) px py = pixel st px py :=
  congrArg UInt32.ofNat
    (loadWord_storeWord_apart (pixelAddress_lt st x y) (pixelAddress_lt st px py) h)

theorem Screen.pixel_storePixel_of_ne (S : Screen st) (hx : x < st.info.width)
    (hy : y < st.info.height) (hpx : px < st.info.width) (hpy : py < st.info.height)
    (hne : ¬(px = x ∧ py = y)) : pixel (storePixel st x y color) px py = pixel st px py :=
  pixel_storePixel_apart (S.pixels_apart hx hy hpx hpy hne)

end Pixels

namespace Paints

variable {st st' st'' : FramebufferState} {area area' : ℕ → ℕ → Prop} {color : UInt32}

theorem none (st : FramebufferState) (color : UInt32) : Paints (fun _ _ => False) color st st :=
  ⟨.refl st, fun _ _ _ _ h => h.elim, fun _ _ _ _ _ => rfl⟩

theorem congr (P : Paints area color st st')
    (h : ∀ x y, x < st.info.width → y < st.info.height → (area' x y ↔ area x y)) :
    Paints area' color st st' :=
  ⟨P.frame, fun x y hx hy ha => P.inside x y hx hy ((h x y hx hy).mp ha),
    fun x y hx hy ha => P.outside x y hx hy fun ha' => ha ((h x y hx hy).mpr ha')⟩

/-- Two paintings in one colour are the painting of the union. -/
theorem union (P : Paints area color st st') (P' : Paints area' color st' st'') :
    Paints (fun x y => area x y ∨ area' x y) color st st'' := by
  have hinfo := P.frame.info_eq
  refine ⟨P.frame.trans P'.frame, fun x y hx hy ha => ?_, fun x y hx hy ha => ?_⟩
  · by_cases ha' : area' x y
    · exact P'.inside x y (hinfo ▸ hx) (hinfo ▸ hy) ha'
    · rw [P'.outside x y (hinfo ▸ hx) (hinfo ▸ hy) ha']
      exact P.inside x y hx hy (ha.resolve_right ha')
  · rw [P'.outside x y (hinfo ▸ hx) (hinfo ▸ hy) fun h => ha (Or.inr h)]
    exact P.outside x y hx hy fun h => ha (Or.inl h)

end Paints

section Loops

variable {st : FramebufferState} {startX endX startY endY : ℕ}

theorem Screen.storePixel_paints (S : Screen st) (x y : ℕ) (color : UInt32) (hx : x < st.info.width)
    (hy : y < st.info.height) :
    Paints (fun px py => px = x ∧ py = y) color st (storePixel st x y color) := by
  refine ⟨rfl, fun px py _ _ h => ?_, fun px py hpx hpy h =>
    S.pixel_storePixel_of_ne hx hy hpx hpy h⟩
  obtain ⟨rfl, rfl⟩ := h
  exact pixel_storePixel_same

/-- The inner loop. -/
theorem Screen.paintRow (S : Screen st) (row : ℕ) (color : UInt32) (hle : startX ≤ endX) (hx : endX ≤ st.info.width)
    (hy : row < st.info.height) :
    Paints (fun px py => startX ≤ px ∧ px < endX ∧ py = row) color st
      (forRange startX endX (fun column st => storePixel st column row color) st) := by
  refine forRange_invariant
    (fun i t => Paints (fun px py => startX ≤ px ∧ px < i ∧ py = row) color st t) hle ?_ ?_
  · exact (Paints.none st color).congr fun px py _ _ => ⟨fun h => by omega, fun h => h.elim⟩
  · intro i t hi hlt P
    have hinfo := P.frame.info_eq
    have hstore := (S.congr P.frame).storePixel_paints i row color
      (by rw [hinfo]; omega) (by rw [hinfo]; exact hy)
    exact (P.union hstore).congr fun px py _ _ => ⟨fun h => by omega, fun h => by omega⟩

theorem Screen.paintRows_paints (S : Screen st) (color : UInt32) (hlex : startX ≤ endX)
    (hx : endX ≤ st.info.width) (hley : startY ≤ endY) (hy : endY ≤ st.info.height) :
    Paints (fun px py => startX ≤ px ∧ px < endX ∧ startY ≤ py ∧ py < endY) color st
      (paintRows st startX endX startY endY color) := by
  refine forRange_invariant
    (fun i t => Paints (fun px py => startX ≤ px ∧ px < endX ∧ startY ≤ py ∧ py < i) color st t)
    hley ?_ ?_
  · exact (Paints.none st color).congr fun px py _ _ => ⟨fun h => by omega, fun h => h.elim⟩
  · intro i t hi hlt P
    have hinfo := P.frame.info_eq
    have hrow := (S.congr P.frame).paintRow i color hlex
      (by rw [hinfo]; exact hx) (by rw [hinfo]; omega)
    exact (P.union hrow).congr fun px py _ _ => ⟨fun h => by omega, fun h => by omega⟩

end Loops

/-- The driver's screen has 32-bit sides, and its fill, where it does anything, does what the loops
do. -/
structure FillsAlike (svga : Svga) : Prop where
  width_lt : svga.info.width < 2 ^ 32
  height_lt : svga.info.height < 2 ^ 32
  fill : ∀ st startX startY width height color st',
    svga.rectFill st startX startY width height color = some st' →
      st' = paintRows st startX (startX + width) startY (startY + height) color

theorem fillsAlike_absent : FillsAlike Svga.absent :=
  ⟨by decide, by decide, fun _ _ _ _ _ _ _ h => by cases h⟩

theorem FillsAlike.sides_lt {svga : Svga} {st : FramebufferState} (h : FillsAlike svga)
    (hacc : framebufferAccelerated svga st = true) :
    st.info.width < 2 ^ 32 ∧ st.info.height < 2 ^ 32 := by
  have hwidth := h.width_lt
  have hheight := h.height_lt
  simp only [framebufferAccelerated, Bool.and_eq_true, beq_iff_eq] at hacc
  omega

theorem Screen.framebufferClear_paints {svga : Svga} {st : FramebufferState} (S : Screen st)
    (hsvga : FillsAlike svga) (color : UInt32) :
    Paints (fun _ _ => True) color st (framebufferClear svga st color) := by
  have hready : ¬(!st.initialized) = true := by simp [S.initialized]
  have hloops := (S.paintRows_paints color (Nat.zero_le _) (le_refl _) (Nat.zero_le _)
    (le_refl _)).congr fun px py hpx hpy => iff_of_true trivial
      ⟨Nat.zero_le px, hpx, Nat.zero_le py, hpy⟩
  unfold framebufferClear
  rw [if_neg hready]
  dsimp only
  split
  · rename_i st' heq
    split_ifs at heq with hacc
    obtain ⟨hwidth, hheight⟩ := hsvga.sides_lt hacc
    have hst := hsvga.fill _ _ _ _ _ _ _ heq
    rw [Nat.mod_eq_of_lt hwidth, Nat.mod_eq_of_lt hheight, Nat.zero_add, Nat.zero_add] at hst
    rwa [hst]
  · exact hloops

section Clipping

variable {start length : ℤ} {maximum : ℕ}

/-- Which indices of an axis a clipped range stands for. -/
def Visible (start length : ℤ) (maximum : ℕ) : Option (ℕ × ℕ) → Prop
  | none => ∀ p : ℕ, p < maximum → ¬(start ≤ p ∧ (p : ℤ) < start + length)
  | some (a, b) => a < b ∧ b ≤ maximum ∧
      ∀ p : ℕ, p < maximum → (a ≤ p ∧ p < b ↔ start ≤ p ∧ (p : ℤ) < start + length)

/-- A range that begins on the axis ends before the next representable one. -/
theorem clipEnd_visible (hmax : maximum < 2 ^ 62) (hstart : 0 ≤ start) (hlength : 0 < length)
    (hsmall : start < maximum) : ∃ stop, clipEnd start length = some stop ∧ 0 < stop ∧
      ∀ p : ℕ, p < maximum → ((p : ℤ) < stop ↔ (p : ℤ) < start + length) := by
  have hroom : checkInt64 (int64Max - start) = some (int64Max - start) :=
    checkInt64_eq (by unfold int64Max; omega) (by omega)
  unfold clipEnd
  rw [hroom, Option.bind_some]
  by_cases hfar : length > int64Max - start
  · refine ⟨int64Max, if_pos hfar, by decide, fun p hp => ?_⟩
    unfold int64Max at *
    omega
  · refine ⟨start + length, ?_, by omega, fun p _ => Iff.rfl⟩
    rw [if_neg hfar, checkInt64_eq (by omega) (by omega)]

/-- Where `INT64_MAX - start` is not evaluated or does not overflow. -/
theorem clipAxis_visible (hmax : maximum < 2 ^ 62) (h : length ≤ 0 ∨ 0 ≤ start) :
    ∃ range, clipAxis start length maximum = some range ∧ Visible start length maximum range := by
  have hmaximum : toInt64 maximum = maximum := toInt64_eq (by omega)
  unfold clipAxis
  rw [hmaximum]
  by_cases hempty : length ≤ 0 ∨ start ≥ maximum
  · refine ⟨none, if_pos hempty, fun p hp => ?_⟩
    omega
  obtain ⟨stop, heq, hpos, hvisible⟩ :=
    clipEnd_visible hmax (show 0 ≤ start by omega) (show 0 < length by omega)
      (show start < maximum by omega)
  have hlast := hvisible start.toNat (by omega)
  rw [if_neg hempty, heq, Option.bind_some, if_neg (show ¬stop ≤ 0 by omega),
    if_neg (show ¬start < 0 by omega)]
  have hlt : start.toNat < if stop > maximum then maximum else stop.toNat := by
    split_ifs <;> omega
  refine ⟨_, rfl, ?_⟩
  rw [if_pos hlt]
  refine ⟨hlt, ?_, fun p hp => ?_⟩
  · split_ifs <;> omega
  · have hp' := hvisible p hp
    split_ifs <;> omega

/-- A range that begins before the axis overflows. -/
theorem clipAxis_overflow (hmax : maximum < 2 ^ 62) (hlength : 0 < length) (hstart : start < 0) :
    clipAxis start length maximum = none := by
  have hmaximum : toInt64 maximum = maximum := toInt64_eq (by omega)
  unfold clipAxis clipEnd
  rw [hmaximum, if_neg (by omega), checkInt64_eq_none (show int64Max < int64Max - start by omega)]
  rfl

end Clipping

section FillRect

variable {svga : Svga} {st : FramebufferState} {color : UInt32}

theorem Screen.fillClipped_paints (S : Screen st) (hsvga : FillsAlike svga)
    {startX endX startY endY : ℕ} (hlex : startX ≤ endX) (hx : endX ≤ st.info.width)
    (hley : startY ≤ endY) (hy : endY ≤ st.info.height) :
    Paints (fun px py => startX ≤ px ∧ px < endX ∧ startY ≤ py ∧ py < endY) color st
      (fillClipped svga st startX endX startY endY color) := by
  have hloops := S.paintRows_paints color hlex hx hley hy
  have hW := S.width_lt
  have hH := S.height_lt
  unfold fillClipped
  rw [sub64_eq hlex (by omega), sub64_eq hley (by omega)]
  dsimp only
  split
  · rename_i st' heq
    split_ifs at heq with hlarge
    obtain ⟨hwidth, hheight⟩ := hsvga.sides_lt hlarge.2
    have hst := hsvga.fill _ _ _ _ _ _ _ heq
    rw [Nat.mod_eq_of_lt (show startX < _ by omega), Nat.mod_eq_of_lt (show startY < _ by omega),
      Nat.mod_eq_of_lt (show endX - startX < _ by omega),
      Nat.mod_eq_of_lt (show endY - startY < _ by omega), Nat.add_sub_of_le hlex,
      Nat.add_sub_of_le hley] at hst
    rwa [hst]
  · exact hloops

/-- The pixels of a rectangle, in unbounded integers. -/
def InRect (x y width height : ℤ) (px py : ℕ) : Prop :=
  x ≤ px ∧ (px : ℤ) < x + width ∧ y ≤ py ∧ (py : ℤ) < y + height

/-- A rectangle that begins on the screen is painted exactly. -/
theorem Screen.fillRect_paints (S : Screen st) (hsvga : FillsAlike svga) (x y width height : ℤ)
    (color : UInt32) (hx : width ≤ 0 ∨ 0 ≤ x) (hy : height ≤ 0 ∨ 0 ≤ y) :
    ∃ st', framebufferFillRect svga st x y width height color = some st' ∧
      Paints (InRect x y width height) color st st' := by
  have hready : ¬(!st.initialized) = true := by simp [S.initialized]
  obtain ⟨rangeX, hrangeX, hvisX⟩ := clipAxis_visible S.width_lt hx
  obtain ⟨rangeY, hrangeY, hvisY⟩ := clipAxis_visible S.height_lt hy
  unfold framebufferFillRect
  rw [if_neg hready, hrangeX, Option.bind_some]
  cases rangeX with
  | none =>
    refine ⟨st, rfl, (Paints.none st color).congr fun px py hpx _ => ?_⟩
    exact iff_of_false (fun h => hvisX px hpx ⟨h.1, h.2.1⟩) id
  | some rangeX =>
    obtain ⟨startX, endX⟩ := rangeX
    obtain ⟨hltX, hleX, hinX⟩ := hvisX
    dsimp only
    rw [hrangeY, Option.bind_some]
    cases rangeY with
    | none =>
      refine ⟨st, rfl, (Paints.none st color).congr fun px py _ hpy => ?_⟩
      exact iff_of_false (fun h => hvisY py hpy h.2.2) id
    | some rangeY =>
      obtain ⟨startY, endY⟩ := rangeY
      obtain ⟨hltY, hleY, hinY⟩ := hvisY
      refine ⟨_, rfl, (S.fillClipped_paints hsvga (le_of_lt hltX) hleX (le_of_lt hltY)
        hleY).congr fun px py hpx hpy => ?_⟩
      have h₁ := hinX px hpx
      have h₂ := hinY py hpy
      unfold InRect
      omega

/-- Where `framebuffer_fill_rect` does not overflow. -/
theorem Screen.fillRect_of_some (S : Screen st) {x y width height : ℤ} {st' : FramebufferState}
    (heq : framebufferFillRect svga st x y width height color = some st') :
    width ≤ 0 ∨ (st.info.width : ℤ) ≤ x ∨ 0 ≤ x ∧ (height ≤ 0 ∨ 0 ≤ y) := by
  have hready : ¬(!st.initialized) = true := by simp [S.initialized]
  by_contra hbad
  unfold framebufferFillRect at heq
  rw [if_neg hready] at heq
  by_cases hx : x < 0
  · rw [clipAxis_overflow S.width_lt (by omega) hx] at heq
    cases heq
  · obtain ⟨rangeX, hrangeX, hvisX⟩ := clipAxis_visible S.width_lt (Or.inr (not_lt.mp hx))
    rw [hrangeX, Option.bind_some] at heq
    cases rangeX with
    | none => exact hvisX x.toNat (by omega) (by omega)
    | some rangeX =>
      dsimp only at heq
      rw [clipAxis_overflow S.height_lt (by omega) (by omega)] at heq
      cases heq

/-- Where it does not, it paints the rectangle. -/
theorem Screen.fillRect_paints_of_clips (S : Screen st) (hsvga : FillsAlike svga)
    {x y width height : ℤ}
    (h : width ≤ 0 ∨ (st.info.width : ℤ) ≤ x ∨ 0 ≤ x ∧ (height ≤ 0 ∨ 0 ≤ y)) (color : UInt32) :
    ∃ st', framebufferFillRect svga st x y width height color = some st' ∧
      Paints (InRect x y width height) color st st' := by
  have hready : ¬(!st.initialized) = true := by simp [S.initialized]
  by_cases hoff : width ≤ 0 ∨ (st.info.width : ℤ) ≤ x
  · -- the first axis already decides, whatever the second one would do
    have hnone : clipAxis x width st.info.width = some none := by
      unfold clipAxis
      rw [toInt64_eq (by have := S.width_lt; omega), if_pos hoff]
    refine ⟨st, ?_, (Paints.none st color).congr fun px py hpx _ => ?_⟩
    · unfold framebufferFillRect
      rw [if_neg hready, hnone]
      rfl
    · exact iff_of_false (fun h => by unfold InRect at h; omega) id
  · exact S.fillRect_paints hsvga x y width height color (by omega) (by omega)

/-- Where it has a result, it has painted the rectangle. -/
theorem Screen.fillRect_paints_of_some (S : Screen st) (hsvga : FillsAlike svga)
    {x y width height : ℤ} {st' : FramebufferState}
    (h : framebufferFillRect svga st x y width height color = some st') :
    (width ≤ 0 ∨ (st.info.width : ℤ) ≤ x ∨ 0 ≤ x ∧ (height ≤ 0 ∨ 0 ≤ y)) ∧
      Paints (InRect x y width height) color st st' := by
  have hclips := S.fillRect_of_some h
  obtain ⟨st'', h', P⟩ := S.fillRect_paints_of_clips hsvga hclips color
  obtain rfl := Option.some.inj (h'.symm.trans h)
  exact ⟨hclips, P⟩

/-- `framebuffer_fill_rect` paints the clipped rectangle, without an overflow, exactly when the
rectangle is empty or off the screen to the right, or does not begin left of the screen and is
empty or does not begin above it. -/
theorem fillRect_exact_iff (S : Screen st) (hsvga : FillsAlike svga) (x y width height : ℤ)
    (color : UInt32) :
    (∃ st', framebufferFillRect svga st x y width height color = some st' ∧
      Paints (InRect x y width height) color st st') ↔
      width ≤ 0 ∨ (st.info.width : ℤ) ≤ x ∨ 0 ≤ x ∧ (height ≤ 0 ∨ 0 ≤ y) := by
  constructor
  · rintro ⟨st', heq, -⟩
    exact S.fillRect_of_some heq
  · intro h
    exact S.fillRect_paints_of_clips hsvga h color

/-- Sixteen by sixteen pixels at the second page. -/
def smallScreen : FramebufferState :=
  ⟨fun _ => 0, 4096, ⟨16, 16, 64, 32, 16, 8, 0, 8, 8, 8⟩, 1, 1, 0, 0, true⟩

theorem smallScreen_screen : Screen smallScreen := by constructor <;> decide

theorem fillRect_exact_iff_smallScreen :
    (∃ st', framebufferFillRect Svga.absent smallScreen 3 4 100 2 5 = some st' ∧
      Paints (InRect 3 4 100 2) 5 smallScreen st') ↔
      (100 : ℤ) ≤ 0 ∨ (smallScreen.info.width : ℤ) ≤ 3 ∨ 0 ≤ (3 : ℤ) ∧ ((2 : ℤ) ≤ 0 ∨ 0 ≤ (4 : ℤ)) :=
  fillRect_exact_iff smallScreen_screen fillsAlike_absent 3 4 100 2 5

/-- Two columns that begin one pixel left of the screen: the pixel at the origin ought to be
painted, but `INT64_MAX - start` overflows. -/
theorem fillRect_overflows : Screen smallScreen ∧ InRect (-1) 0 2 1 0 0 ∧
    checkInt64 (int64Max - -1) = none ∧
    framebufferFillRect Svga.absent smallScreen (-1) 0 2 1 5 = none :=
  ⟨smallScreen_screen, by unfold InRect; omega, by decide, rfl⟩

end FillRect

end JsOs.FramebufferPainting

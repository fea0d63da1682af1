import JsOs.DrawingModel
import JsOs.FramebufferPainting

/-!
# The store law of pixels

`framebuffer_init` compares the pitch with `width * 4` in 64 bits, and does not look at the extent
of all rows. What it accepts is a proper screen only where neither of these wraps into the way.
-/

namespace JsOs.PixelStores

open ByteMemory MachineWords FramebufferModel FramebufferPainting DrawingModel

def IsInt64 (v : ℤ) : Prop := -2 ^ 63 ≤ v ∧ v < 2 ^ 63

def OnScreen (info : FramebufferInfo) (x y : ℤ) : Prop :=
  0 ≤ x ∧ x < info.width ∧ 0 ≤ y ∧ y < info.height

/-- `framebuffer_set_pixel` changes the pixel on the screen that it is given, inside its row, and no
other. -/
def StoreLaw (st : FramebufferState) : Prop :=
  ∀ x y color, IsInt64 x → IsInt64 y →
    ((framebufferSetPixel st x y color).1 = true ↔ OnScreen st.info x y) ∧
    (OnScreen st.info x y →
      x * 4 + 4 ≤ st.info.pitch ∧
      framebufferGetPixel (framebufferSetPixel st x y color).2 x y = some color ∧
      ∀ px py, IsInt64 px → IsInt64 py → OnScreen st.info px py → ¬(px = x ∧ py = y) →
        framebufferGetPixel (framebufferSetPixel st x y color).2 px py =
          framebufferGetPixel st px py) ∧
    (¬OnScreen st.info x y → (framebufferSetPixel st x y color).2 = st)

/-- Rows of the screen that an `int64_t` counts share no byte, whatever their distance `d`. -/
def RowsApart (width height pitch : ℕ) : Prop :=
  ∀ d, 0 < d → d < height → d < 2 ^ 63 →
    4 * width ≤ d * pitch % 2 ^ 64 ∧ d * pitch % 2 ^ 64 + 4 * width ≤ 2 ^ 64

section Words

variable {m : Memory} {a b : ℕ} {st : FramebufferState} {x y px py : ℕ}

/-- Words that share a byte: one of the stores of zeros and of ones is seen. -/
theorem wordsApart_of_unchanged (ha : a < 2 ^ 64) (hb : b < 2 ^ 64)
    (hzero : loadWord (storeWord m a 0) b = loadWord m b)
    (hones : loadWord (storeWord m a (2 ^ 32 - 1)) b = loadWord m b) : WordsApart a b := by
  by_contra hshared
  obtain ⟨i, hi, hbyte, hoffset⟩ :
      ∃ i < 4, add64 b (0 + i) < 2 ^ 64 ∧ sub64 (add64 b (0 + i)) a < 4 := by
    unfold WordsApart at hshared
    by_cases hafter : sub64 b a < 4
    · refine ⟨0, by omega, ?_⟩
      unfold sub64 add64 at *
      omega
    · refine ⟨sub64 a b, by omega, ?_⟩
      unfold sub64 add64 at *
      omega
  have hzero' := load_inj hzero hi
  have hones' := load_inj hones hi
  rw [storeWord, if_pos ⟨hbyte, hoffset⟩, Nat.zero_div] at hzero'
  rw [storeWord, if_pos ⟨hbyte, hoffset⟩, ← hzero'] at hones'
  generalize sub64 (add64 b (0 + i)) a = k at hoffset hones'
  obtain rfl | rfl | rfl | rfl : k = 0 ∨ k = 1 ∨ k = 2 ∨ k = 3 := by omega
  all_goals exact absurd hones' (by decide)

theorem pixelAddress_mod (st : FramebufferState) (x y : ℕ) :
    pixelAddress st x y = (st.address + y * st.info.pitch + x * 4) % 2 ^ 64 := by
  unfold pixelAddress add64 mul64
  generalize y * st.info.pitch = offset
  omega

theorem pixel_eq_iff {st' : FramebufferState} : pixel st' px py = pixel st px py ↔
    loadWord st'.memory (pixelAddress st' px py) = loadWord st.memory (pixelAddress st px py) := by
  have hlt := load_lt (fun i => st.memory (add64 (pixelAddress st px py) i)) 0 4
  have hlt' := load_lt (fun i => st'.memory (add64 (pixelAddress st' px py) i)) 0 4
  constructor
  · intro h
    have hnat := congrArg UInt32.toNat h
    unfold pixel at hnat
    rw [UInt32.toNat_ofNat', UInt32.toNat_ofNat'] at hnat
    unfold loadWord at hnat ⊢
    omega
  · exact congrArg UInt32.ofNat

/-- Different pixels of the rows that an `int64_t` counts. -/
theorem wordsApart_of_rowsApart (hwidth : st.info.width < 2 ^ 62)
    (h : RowsApart st.info.width st.info.height st.info.pitch)
    (hx : x < st.info.width) (hpx : px < st.info.width) (hlt : y < py) (hpy : py < st.info.height)
    (hrow : py < 2 ^ 63) : WordsApart (pixelAddress st x y) (pixelAddress st px py) := by
  obtain ⟨d, rfl⟩ := Nat.exists_eq_add_of_lt hlt
  obtain ⟨hlower, hupper⟩ := h (d + 1) (by omega) (by omega) (by omega)
  rw [pixelAddress_mod, pixelAddress_mod, Nat.add_assoc y, Nat.add_mul y]
  generalize y * st.info.pitch = u at *
  generalize (d + 1) * st.info.pitch = v at *
  unfold WordsApart sub64
  omega

/-- Two pixels of one row. -/
theorem wordsApart_of_ne (hwidth : st.info.width < 2 ^ 62) (hx : x < st.info.width)
    (hpx : px < st.info.width) (hne : px ≠ x) :
    WordsApart (pixelAddress st x y) (pixelAddress st px y) := by
  rw [pixelAddress_mod, pixelAddress_mod]
  generalize y * st.info.pitch = u
  unfold WordsApart sub64
  omega

/-- Rows that share a byte have pixels that share a byte. -/
theorem rowsApart_of_wordsApart (hpos : 0 < st.info.width)
    (h : ∀ x y px py, x < st.info.width → y < st.info.height → y < 2 ^ 63 →
      px < st.info.width → py < st.info.height → py < 2 ^ 63 → ¬(px = x ∧ py = y) →
        WordsApart (pixelAddress st x y) (pixelAddress st px py)) :
    RowsApart st.info.width st.info.height st.info.pitch := by
  intro d hd hheight hrow
  have happly := fun x px hx hpx => h x 0 px d hx (by omega) (by omega) hpx hheight hrow (by omega)
  simp only [pixelAddress_mod, Nat.zero_mul, Nat.add_zero] at happly
  generalize d * st.info.pitch = v at *
  constructor
  · by_contra hclose
    have hshared := happly (v % 2 ^ 64 / 4) 0 (by omega) hpos
    unfold WordsApart sub64 at hshared
    omega
  · by_contra hclose
    have hshared := happly 0 ((2 ^ 64 - v % 2 ^ 64) / 4) hpos (by omega)
    unfold WordsApart sub64 at hshared
    omega

end Words

section Calls

variable {st : FramebufferState} {x y px py : ℤ} {color : UInt32}

theorem onScreen_guard (hready : st.initialized = true) :
    (!st.initialized ∨ x < 0 ∨ y < 0 ∨ x.toNat ≥ st.info.width ∨ y.toNat ≥ st.info.height) ↔
      ¬OnScreen st.info x y := by
  unfold OnScreen
  simp only [hready, Bool.not_true, Bool.false_eq_true, false_or]
  omega

theorem framebufferSetPixel_on (hready : st.initialized = true) (h : OnScreen st.info x y) :
    framebufferSetPixel st x y color = (true, storePixel st x.toNat y.toNat color) := by
  rw [framebufferSetPixel, if_neg ((onScreen_guard hready).not.mpr (not_not.mpr h))]

theorem framebufferSetPixel_off (hready : st.initialized = true) (h : ¬OnScreen st.info x y) :
    framebufferSetPixel st x y color = (false, st) := by
  rw [framebufferSetPixel, if_pos ((onScreen_guard hready).mpr h)]

/-- A store changes neither the size of the screen nor whether it is there. -/
theorem framebufferGetPixel_storePixel (hready : st.initialized = true)
    (h : OnScreen st.info px py) (x y : ℕ) :
    framebufferGetPixel (storePixel st x y color) px py =
      some (pixel (storePixel st x y color) px.toNat py.toNat) := by
  have hguard := (@onScreen_guard (storePixel st x y color) px py hready).not.mpr (not_not.mpr h)
  rw [framebufferGetPixel, if_neg hguard]

theorem framebufferGetPixel_on (hready : st.initialized = true) (h : OnScreen st.info x y) :
    framebufferGetPixel st x y = some (pixel st x.toNat y.toNat) := by
  rw [framebufferGetPixel, if_neg ((onScreen_guard hready).not.mpr (not_not.mpr h))]

/-- The law comes down to the row and the words that are stored. -/
theorem storeLaw_iff_words (hready : st.initialized = true) : StoreLaw st ↔
    ∀ x y, IsInt64 x → IsInt64 y → OnScreen st.info x y → x * 4 + 4 ≤ st.info.pitch ∧
      ∀ px py, IsInt64 px → IsInt64 py → OnScreen st.info px py → ¬(px = x ∧ py = y) →
        WordsApart (pixelAddress st x.toNat y.toNat) (pixelAddress st px.toNat py.toNat) := by
  constructor
  · intro h x y hx hy hon
    refine ⟨((h x y 0 hx hy).2.1 hon).1, fun px py hpx hpy hon' hne => ?_⟩
    have hkeep : ∀ color : UInt32, loadWord (storeWord st.memory (pixelAddress st x.toNat y.toNat)
        color.toNat) (pixelAddress st px.toNat py.toNat) =
          loadWord st.memory (pixelAddress st px.toNat py.toNat) := by
      intro color
      have hlaw := ((h x y color hx hy).2.1 hon).2.2 px py hpx hpy hon' hne
      rw [framebufferSetPixel_on hready hon] at hlaw
      rw [framebufferGetPixel_storePixel hready hon',
        framebufferGetPixel_on hready hon'] at hlaw
      have hwords := pixel_eq_iff.mp (Option.some.inj hlaw)
      exact hwords
    exact wordsApart_of_unchanged (pixelAddress_lt ..) (pixelAddress_lt ..) (hkeep 0)
      (hkeep 0xffffffff)
  · intro h x y color hx hy
    by_cases hon : OnScreen st.info x y
    · obtain ⟨hrow, hapart⟩ := h x y hx hy hon
      rw [framebufferSetPixel_on hready hon]
      refine ⟨iff_of_true rfl hon, fun _ => ⟨hrow, ?_, fun px py hpx hpy hon' hne => ?_⟩,
        fun hoff => absurd hon hoff⟩
      · rw [framebufferGetPixel_storePixel hready hon,
          pixel_storePixel_same]
      · rw [framebufferGetPixel_storePixel hready hon',
          framebufferGetPixel_on hready hon',
          pixel_storePixel_apart (hapart px py hpx hpy hon' hne)]
    · rw [framebufferSetPixel_off hready hon]
      exact ⟨iff_of_false (by simp) hon, fun hon' => absurd hon' hon, fun _ => rfl⟩

theorem onScreen_natCast {x y : ℕ} : OnScreen st.info x y ↔ x < st.info.width ∧ y < st.info.height := by
  unfold OnScreen
  omega

/-- The law of a screen, by its measures. -/
theorem storeLaw_iff (hready : st.initialized = true) (hpos : 0 < st.info.width)
    (hheight : 0 < st.info.height) (hpitch : st.info.pitch < 2 ^ 64) : StoreLaw st ↔
      4 * st.info.width ≤ st.info.pitch ∧
        RowsApart st.info.width st.info.height st.info.pitch := by
  rw [storeLaw_iff_words hready]
  constructor
  · intro h
    have hrow : 4 * st.info.width ≤ st.info.pitch := by
      -- the last pixel of the first row, or one that is far enough
      by_contra hshort
      obtain ⟨hlast, -⟩ := h (min (st.info.width - 1) (2 ^ 62 - 1) : ℕ) (0 : ℕ)
        (by unfold IsInt64; omega) (by unfold IsInt64; omega) (onScreen_natCast.mpr (by omega))
      omega
    refine ⟨hrow, rowsApart_of_wordsApart hpos fun x y px py hx hy hy' hpx hpy hpy' hne => ?_⟩
    have hapart := (h x y (by unfold IsInt64; omega) (by unfold IsInt64; omega)
      (onScreen_natCast.mpr ⟨hx, hy⟩)).2 px py (by unfold IsInt64; omega) (by unfold IsInt64; omega)
      (onScreen_natCast.mpr ⟨hpx, hpy⟩) (by omega)
    simpa only [Int.toNat_natCast] using hapart
  · rintro ⟨hrow, hrows⟩ x y hx hy ⟨hx₀, hx₁, hy₀, hy₁⟩
    refine ⟨by omega, ?_⟩
    rintro px py hpx hpy ⟨hpx₀, hpx₁, hpy₀, hpy₁⟩ hne
    unfold IsInt64 at hx hy hpx hpy
    rcases lt_trichotomy y py with hlt | rfl | hlt
    · exact wordsApart_of_rowsApart (by omega) hrows (by omega) (by omega) (by omega) (by omega)
        (by omega)
    · exact wordsApart_of_ne (by omega) (by omega) (by omega) (by omega)
    · exact (wordsApart_of_rowsApart (by omega) hrows (by omega) (by omega) (by omega) (by omega)
        (by omega)).symm

end Calls

section Descriptors

variable {st : FramebufferState} {framebuffer : LimineFramebuffer}

theorem framebufferInit_accepted (h : (framebufferInit st (some framebuffer)).1 = true) :
    (framebufferInit st (some framebuffer)).2.initialized = true ∧
      (framebufferInit st (some framebuffer)).2.info.width = framebuffer.width ∧
      (framebufferInit st (some framebuffer)).2.info.height = framebuffer.height ∧
      (framebufferInit st (some framebuffer)).2.info.pitch = framebuffer.pitch ∧
      0 < framebuffer.width ∧ 0 < framebuffer.height ∧
      mul64 framebuffer.width 4 ≤ framebuffer.pitch := by
  unfold framebufferInit at h ⊢
  dsimp only at h ⊢
  split_ifs at h ⊢ with hbad
  exact ⟨rfl, rfl, rfl, rfl, by omega, by omega, by omega⟩

/-- A descriptor that `framebuffer_init` accepts obeys the store law exactly when the test of the
pitch has not wrapped and no two rows come together where their addresses do. -/
theorem framebufferInit_storeLaw_iff (hinit : (framebufferInit st (some framebuffer)).1 = true)
    (hpitch : framebuffer.pitch < 2 ^ 64) : StoreLaw (framebufferInit st (some framebuffer)).2 ↔
      framebuffer.width < 2 ^ 62 ∧
        RowsApart framebuffer.width framebuffer.height framebuffer.pitch := by
  obtain ⟨hready, hw, hh, hp, hwidth, hheight, htest⟩ := framebufferInit_accepted hinit
  rw [storeLaw_iff hready (hw ▸ hwidth) (hh ▸ hheight) (hp ▸ hpitch), hw, hh, hp]
  unfold mul64 at htest
  exact and_congr_left fun _ => ⟨fun h => by omega, fun h => by omega⟩

/-- What fits in the address space obeys it. -/
theorem rowsApart_of_fits {width height pitch : ℕ} (hrow : 4 * width ≤ pitch)
    (hfits : height * pitch ≤ 2 ^ 64) : RowsApart width height pitch := by
  intro d hd hheight _
  have hfirst : 1 * pitch ≤ d * pitch := Nat.mul_le_mul_right _ hd
  have hlast : (d + 1) * pitch ≤ height * pitch := Nat.mul_le_mul_right _ hheight
  rw [Nat.succ_mul] at hlast
  by_cases hpitch : pitch = 0
  · simp_all
  · rw [Nat.mod_eq_of_lt (show d * pitch < 2 ^ 64 by omega)]
    omega

/-- A screen of 1024 by 768 pixels, four spare bytes a row. -/
def usualFramebuffer : LimineFramebuffer :=
  ⟨0xfd000000, 1024, 768, 4100, 32, 1, 8, 16, 8, 8, 8, 0⟩

theorem framebufferInit_storeLaw_iff_usual :
    StoreLaw (framebufferInit smallScreen (some usualFramebuffer)).2 :=
  (@framebufferInit_storeLaw_iff smallScreen usualFramebuffer rfl (by decide)).mpr
    ⟨by decide, rowsApart_of_fits (by decide) (by decide)⟩

/-- A row of `2 ^ 62 + 1` pixels in four bytes: the test of the pitch wraps, and the last pixel is
the first one. -/
def wideFramebuffer : LimineFramebuffer :=
  ⟨0xfd000000, 2 ^ 62 + 1, 1, 4, 32, 1, 8, 16, 8, 8, 8, 0⟩

theorem setPixel_wraps :
    (framebufferInit smallScreen (some wideFramebuffer)).1 = true ∧
    OnScreen (framebufferInit smallScreen (some wideFramebuffer)).2.info (2 ^ 62) 0 ∧
    ¬(2 ^ 62 * 4 + 4 : ℤ) ≤ wideFramebuffer.pitch ∧
    framebufferGetPixel (framebufferInit smallScreen (some wideFramebuffer)).2 0 0 = some 0 ∧
    framebufferGetPixel (framebufferSetPixel
      (framebufferInit smallScreen (some wideFramebuffer)).2 (2 ^ 62) 0 7).2 0 0 = some 7 := by
  refine ⟨rfl, ?_, by decide, rfl, by decide +kernel⟩
  unfold OnScreen
  decide +kernel

end Descriptors

end JsOs.PixelStores

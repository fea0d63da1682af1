import JsOs.BitFields
import JsOs.BlendingModel
import JsOs.PixelStores
import JsOs.RoundedMeans

/-!
# Blending between two colours

A channel is read as eight bits, mixed, and written back. Up to eight bits this is exact enough for
the result to lie between the two colours. Of a wider field only the low byte is read and written.
-/

namespace JsOs.PixelBlending

open MachineWords FramebufferModel FramebufferPainting DrawingModel BlendingModel PixelStores
open BitFields RoundedMeans

section Channels

def channelField (size shift : UInt8) : Field := ⟨shift.toNat, size.toNat⟩

/-- The value that `color_channel` makes of a field of `n` bits. -/
def decode (n v : ℕ) : ℕ := if 8 ≤ n then v % 256 else v * 255 / (2 ^ n - 1)

/-- The field of `n` bits that `channel` makes of a value. -/
def encode (n v : ℕ) : ℕ := if 8 ≤ n then v else v / 2 ^ (8 - n)

variable {size shift alpha : UInt8} {color destination : UInt32} {n v : ℕ}

theorem channelField_get_lt (size shift : UInt8) (v : ℕ) :
    (channelField size shift).get v < 2 ^ size.toNat := Field.get_lt _ v

theorem decode_le (hv : v < 2 ^ n) : decode n v ≤ 255 := by
  unfold decode
  split_ifs with h8
  · omega
  · refine Nat.div_le_of_le_mul ?_
    exact Nat.mul_le_mul_right 255 (Nat.le_sub_one_of_lt hv)

theorem encode_lt (hn : 1 ≤ n) (hv : v ≤ 255) : encode n v < 2 ^ n := by
  unfold encode
  split_ifs with h8
  · have hpow : 2 ^ 8 ≤ 2 ^ n := Nat.pow_le_pow_right (by decide) h8
    omega
  · rw [Nat.div_lt_iff_lt_mul (Nat.two_pow_pos _), ← pow_add, Nat.add_sub_of_le (by omega)]
    omega

theorem toNat_mask (hsize : size.toNat < 32) :
    ((1 : UInt32) <<< size.toUInt32 - 1).toNat = 2 ^ size.toNat - 1 := by
  have hpow : 2 ^ size.toNat < 2 ^ 32 := Nat.pow_lt_pow_right (by decide) hsize
  have hpos := Nat.two_pow_pos size.toNat
  have hshift : ((1 : UInt32) <<< size.toUInt32).toNat = 2 ^ size.toNat := by
    rw [UInt32.toNat_shiftLeft, UInt8.toNat_toUInt32, Nat.mod_eq_of_lt hsize, Nat.shiftLeft_eq,
      UInt32.toNat_one, Nat.one_mul, Nat.mod_eq_of_lt hpow]
  rw [UInt32.toNat_sub_of_le, hshift, UInt32.toNat_one]
  rw [UInt32.le_iff_toNat_le, hshift]
  exact hpos

theorem colorChannel_toNat (hsize : 1 ≤ size.toNat) (hfits : shift.toNat + size.toNat ≤ 32) :
    (colorChannel color size shift).toNat =
      decode size.toNat ((channelField size shift).get color.toNat) := by
  have hne : ¬size = 0 := by
    rintro rfl
    exact absurd hsize (by decide)
  have hmask : (if size ≥ 32 then (0xffffffff : UInt32) else (1 <<< size.toUInt32) - 1).toNat =
      2 ^ size.toNat - 1 := by
    split_ifs with h32
    · have hle : 32 ≤ size.toNat := UInt8.le_iff_toNat_le.mp h32
      rw [show size.toNat = 32 by omega]
      rfl
    · have hlt : ¬32 ≤ size.toNat := fun h => h32 (UInt8.le_iff_toNat_le.mpr h)
      exact toNat_mask (not_le.mp hlt)
  have hvalue : ((color >>> shift.toUInt32) &&&
      (if size ≥ 32 then (0xffffffff : UInt32) else (1 <<< size.toUInt32) - 1)).toNat =
      (channelField size shift).get color.toNat := by
    rw [UInt32.toNat_and, hmask, UInt32.toNat_shiftRight, UInt8.toNat_toUInt32,
      Nat.mod_eq_of_lt (show shift.toNat < 32 by omega), Nat.shiftRight_eq_div_pow,
      Nat.and_two_pow_sub_one_eq_mod]
    rfl
  have hlt := channelField_get_lt size shift color.toNat
  have h8 : size ≥ 8 ↔ 8 ≤ size.toNat := UInt8.le_iff_toNat_le
  rw [colorChannel, if_neg hne]
  dsimp only
  unfold decode
  by_cases hwide : 8 ≤ size.toNat
  · rw [if_pos (h8.mpr hwide), if_pos hwide, UInt32.toNat_toUInt8, hvalue]
  · have hpow : 2 ^ size.toNat ≤ 2 ^ 7 := Nat.pow_le_pow_right (by decide) (by omega)
    have hle := decode_le hlt
    rw [decode, if_neg hwide] at hle
    have hscaled : (channelField size shift).get color.toNat * 255 < 2 ^ 32 := by omega
    rw [if_neg (h8.not.mpr hwide), if_neg hwide, UInt32.toNat_toUInt8, UInt32.toNat_div,
      UInt32.toNat_mul, hvalue, hmask, show (255 : UInt32).toNat = 255 from rfl,
      Nat.mod_eq_of_lt hscaled]
    exact Nat.mod_eq_of_lt (Nat.lt_succ_of_le hle)

theorem channel_toNat (value : UInt8) (hsize : 1 ≤ size.toNat)
    (hfits : shift.toNat + size.toNat ≤ 32) :
    (channel value size shift).toNat =
      (channelField size shift).put (encode size.toNat value.toNat) := by
  have hne : ¬size = 0 := by
    rintro rfl
    exact absurd hsize (by decide)
  have h8 : size ≥ 8 ↔ 8 ≤ size.toNat := UInt8.le_iff_toNat_le
  have hscaled : (if size ≥ 8 then value else value >>> (8 - size)).toNat =
      encode size.toNat value.toNat := by
    unfold encode
    by_cases hwide : 8 ≤ size.toNat
    · rw [if_pos (h8.mpr hwide), if_pos hwide]
    · have hle : size ≤ 8 := UInt8.le_iff_toNat_le.mpr (not_le.mp hwide).le
      have hsub : (8 - size).toNat = 8 - size.toNat := UInt8.toNat_sub_of_le _ _ hle
      rw [if_neg (h8.not.mpr hwide), if_neg hwide, UInt8.toNat_shiftRight, hsub,
        Nat.mod_eq_of_lt (by omega), Nat.shiftRight_eq_div_pow]
  have hvalue := value.toNat_lt
  have hlt := encode_lt hsize (show value.toNat ≤ 255 by omega)
  have hput : encode size.toNat value.toNat * 2 ^ shift.toNat < 2 ^ 32 := calc
    encode size.toNat value.toNat * 2 ^ shift.toNat < 2 ^ size.toNat * 2 ^ shift.toNat :=
      Nat.mul_lt_mul_of_pos_right hlt (Nat.two_pow_pos _)
    _ = 2 ^ (size.toNat + shift.toNat) := (pow_add ..).symm
    _ ≤ 2 ^ 32 := Nat.pow_le_pow_right (by decide) (by omega)
  rw [channel, if_neg hne]
  dsimp only
  rw [UInt32.toNat_shiftLeft, UInt8.toNat_toUInt32, UInt8.toNat_toUInt32, hscaled,
    Nat.mod_eq_of_lt (show shift.toNat < 32 by omega), Nat.shiftLeft_eq, Nat.mod_eq_of_lt hput]
  rfl

theorem blendChannel_toNat (hsize : 1 ≤ size.toNat) (hfits : shift.toNat + size.toNat ≤ 32) :
    (blendChannel color destination size shift alpha).toNat =
      mean alpha.toNat (decode size.toNat ((channelField size shift).get color.toNat))
        (decode size.toNat ((channelField size shift).get destination.toNat)) := by
  have hs := decode_le (channelField_get_lt size shift color.toNat)
  have hd := decode_le (channelField_get_lt size shift destination.toNat)
  have halpha := alpha.toNat_lt
  have hinverse : (255 - alpha.toUInt32).toNat = 255 - alpha.toNat := by
    rw [UInt32.toNat_sub_of_le, UInt8.toNat_toUInt32]
    · rfl
    · rw [UInt32.le_iff_toNat_le, UInt8.toNat_toUInt32]
      exact Nat.le_of_lt_succ halpha
  have hmean := mean_le (show alpha.toNat ≤ 255 by omega) hs hd
  rw [blendChannel, UInt32.toNat_toUInt8, UInt32.toNat_div, UInt32.toNat_add, UInt32.toNat_add,
    UInt32.toNat_mul, UInt32.toNat_mul, hinverse, UInt8.toNat_toUInt32, UInt8.toNat_toUInt32,
    UInt8.toNat_toUInt32, colorChannel_toNat hsize hfits, colorChannel_toNat hsize hfits]
  generalize decode size.toNat _ = s at *
  generalize decode size.toNat _ = d at *
  have h₁ : s * alpha.toNat ≤ 255 * 255 := Nat.mul_le_mul hs (by omega)
  have h₂ : d * (255 - alpha.toNat) ≤ 255 * 255 := Nat.mul_le_mul hd (by omega)
  have h127 : (127 : UInt32).toNat = 127 := rfl
  have h255 : (255 : UInt32).toNat = 255 := rfl
  unfold mean at hmean ⊢
  rw [h127, h255]
  omega

end Channels

section Fields

variable {n s d w : ℕ}

theorem encode_monotone (n : ℕ) : Monotone (encode n) := by
  intro a b hab
  unfold encode
  split_ifs
  · exact hab
  · exact Nat.div_le_div_right hab

theorem encode_decode (hn : 1 ≤ n) (hn8 : n < 8) (hs : s < 2 ^ n) : encode n (decode n s) = s := by
  rw [encode, decode, if_neg (not_le.mpr hn8), if_neg (not_le.mpr hn8)]
  exact scale_div hn hn8.le hs

/-- When the blend of the field values `s`, with weight `w`, and `d` lies between them: the weight
leaves one of them alone, or both fit in a byte, or one does and exceeds the low byte of the other
by less than the rounding hides. -/
def Blends (w s d : ℕ) : Prop :=
  w = 0 ∨ w = 255 ∨ (s < 256 ∧ d < 256) ∨
    (d < 256 ∧ 256 ≤ s ∧ ((d : ℤ) - (s % 256 : ℕ)) * w ≤ 127) ∨
    (s < 256 ∧ 256 ≤ d ∧ ((s : ℤ) - (d % 256 : ℕ)) * (255 - w : ℕ) ≤ 127)

/-- Means of low bytes. -/
theorem mean_bytes_between_iff (hw : 0 < w) (hw' : w < 255) (s d : ℕ) :
    Between d s (mean w (s % 256) (d % 256)) ↔ Blends w s d := by
  have hs : s % 256 < 256 := Nat.mod_lt _ (by decide)
  have hd : d % 256 < 256 := Nat.mod_lt _ (by decide)
  have hupper := mean_le (w := w) (c := 255) hw'.le (Nat.le_of_lt_succ hs) (Nat.le_of_lt_succ hd)
  have hmean := mean_between hw'.le (s % 256) (d % 256)
  have hleft := le_mean_iff hw'.le (s % 256) (d % 256)
  have hright := le_mean_iff (Nat.sub_le 255 w) (d % 256) (s % 256)
  rw [← mean_swap hw'.le] at hright
  unfold Between at hmean ⊢
  unfold Blends
  by_cases hs256 : s < 256
  · rw [Nat.mod_eq_of_lt hs256] at *
    by_cases hd256 : d < 256
    · rw [Nat.mod_eq_of_lt hd256] at *
      omega
    · rw [← hright]
      omega
  · by_cases hd256 : d < 256
    · rw [Nat.mod_eq_of_lt hd256] at *
      rw [← hleft]
      omega
    · omega

theorem encode_mean_between_iff (hn : 1 ≤ n) (hw : 0 < w) (hw' : w < 255) (hs : s < 2 ^ n)
    (hd : d < 2 ^ n) :
    Between d s (encode n (mean w (decode n s) (decode n d))) ↔ Blends w s d := by
  by_cases hn8 : 8 ≤ n
  · rw [encode, if_pos hn8, decode, decode, if_pos hn8, if_pos hn8]
    exact mean_bytes_between_iff hw hw' s d
  · have hpow : 2 ^ n ≤ 2 ^ 7 := Nat.pow_le_pow_right (by decide) (by omega)
    have hmean : Between (decode n d) (decode n s) (mean w (decode n s) (decode n d)) := by
      rw [mean_swap hw'.le]
      exact mean_between (Nat.sub_le 255 w) _ _
    have hbetween := hmean.mono (encode_monotone n)
    rw [encode_decode hn (by omega) hs, encode_decode hn (by omega) hd] at hbetween
    exact iff_of_true hbetween (Or.inr (Or.inr (Or.inl ⟨by omega, by omega⟩)))

end Fields

section Formats

def channelFields (info : FramebufferInfo) : List Field :=
  [channelField info.redSize info.redShift, channelField info.greenSize info.greenShift,
    channelField info.blueSize info.blueShift]

/-- The three fields have bits, and they lie apart in the 32 bits of a pixel. -/
structure FormatFits (info : FramebufferInfo) : Prop where
  fits : ∀ f ∈ channelFields info, 1 ≤ f.size ∧ f.shift + f.size ≤ 32
  apart : (channelFields info).Pairwise Field.Apart

variable {info : FramebufferInfo} {color destination : UInt32} {alpha : UInt8} {f g h : Field}
variable {a b c : ℕ}

theorem get_three (hfg : f.Apart g) (hfh : f.Apart h) (hgh : g.Apart h) (ha : a < 2 ^ f.size)
    (hb : b < 2 ^ g.size) (hc : c < 2 ^ h.size) :
    f.get (f.put a ||| g.put b ||| h.put c) = a ∧ g.get (f.put a ||| g.put b ||| h.put c) = b ∧
      h.get (f.put a ||| g.put b ||| h.put c) = c := by
  simp only [Field.get_or, Field.get_put ha, Field.get_put hb, Field.get_put hc,
    Field.get_put_of_apart hfg hb, Field.get_put_of_apart hfh hc, Field.get_put_of_apart hgh hc,
    Field.get_put_of_apart hfg.symm ha, Field.get_put_of_apart hfh.symm ha,
    Field.get_put_of_apart hgh.symm hb, Nat.or_zero, Nat.zero_or, and_self]

theorem FormatFits.field (F : FormatFits info) {size shift : UInt8}
    (h : channelField size shift ∈ channelFields info) :
    1 ≤ size.toNat ∧ shift.toNat + size.toNat ≤ 32 := F.fits _ h

theorem framebufferRgb_fields (F : FormatFits info) (red green blue : UInt8) :
    ((channelField info.redSize info.redShift).get (framebufferRgb info red green blue).toNat =
        encode info.redSize.toNat red.toNat ∧
      (channelField info.greenSize info.greenShift).get
          (framebufferRgb info red green blue).toNat =
        encode info.greenSize.toNat green.toNat ∧
      (channelField info.blueSize info.blueShift).get (framebufferRgb info red green blue).toNat =
        encode info.blueSize.toNat blue.toNat) ∧
      Within (channelFields info) (framebufferRgb info red green blue).toNat := by
  have hapart := F.apart
  simp only [channelFields, List.pairwise_cons, List.forall_mem_cons, List.not_mem_nil,
    false_imp_iff, implies_true, and_true, List.Pairwise.nil] at hapart
  obtain ⟨⟨hrg, hrb⟩, hgb⟩ := hapart
  have hmem : channelField info.redSize info.redShift ∈ channelFields info ∧
      channelField info.greenSize info.greenShift ∈ channelFields info ∧
      channelField info.blueSize info.blueShift ∈ channelFields info := by simp [channelFields]
  obtain ⟨hr, hr'⟩ := F.field hmem.1
  obtain ⟨hg, hg'⟩ := F.field hmem.2.1
  obtain ⟨hb, hb'⟩ := F.field hmem.2.2
  have hred := encode_lt hr (Nat.le_of_lt_succ red.toNat_lt)
  have hgreen := encode_lt hg (Nat.le_of_lt_succ green.toNat_lt)
  have hblue := encode_lt hb (Nat.le_of_lt_succ blue.toNat_lt)
  rw [framebufferRgb, UInt32.toNat_or, UInt32.toNat_or, channel_toNat red hr hr',
    channel_toNat green hg hg', channel_toNat blue hb hb']
  exact ⟨get_three hrg hrb hgb hred hgreen hblue,
    ((within_put hmem.1 hred).or (within_put hmem.2.1 hgreen)).or (within_put hmem.2.2 hblue)⟩

/-- The fields of the colour that is stored, and nothing beside them. -/
theorem blendColor_fields (F : FormatFits info) (color destination : UInt32) (alpha : UInt8) :
    (∀ f ∈ channelFields info, f.get (blendColor info color destination alpha).toNat =
      encode f.size (mean alpha.toNat (decode f.size (f.get color.toNat))
        (decode f.size (f.get destination.toNat)))) ∧
      Within (channelFields info) (blendColor info color destination alpha).toNat := by
  have hvalue : ∀ size shift, channelField size shift ∈ channelFields info →
      (blendChannel color destination size shift alpha).toNat =
        mean alpha.toNat (decode size.toNat ((channelField size shift).get color.toNat))
          (decode size.toNat ((channelField size shift).get destination.toNat)) :=
    fun size shift h => blendChannel_toNat (F.field h).1 (F.field h).2
  obtain ⟨⟨hr, hg, hb⟩, hwithin⟩ := framebufferRgb_fields F
    (blendChannel color destination info.redSize info.redShift alpha)
    (blendChannel color destination info.greenSize info.greenShift alpha)
    (blendChannel color destination info.blueSize info.blueShift alpha)
  rw [hvalue _ _ (by simp [channelFields])] at hr hg hb
  refine ⟨fun f hf => ?_, hwithin⟩
  simp only [channelFields, List.mem_cons, List.not_mem_nil, or_false] at hf
  rcases hf with rfl | rfl | rfl
  · exact hr
  · exact hg
  · exact hb

end Formats

section Pixels

variable {st : FramebufferState} {x y : ℤ} {color : UInt32} {alpha : UInt8}

/-- The pixel after `framebuffer_blend_pixel`. -/
def blended (info : FramebufferInfo) (color : UInt32) (alpha : UInt8) (destination : UInt32) :
    UInt32 :=
  if alpha = 0 then destination
  else if alpha = 255 then color
  else blendColor info color destination alpha

theorem getPixel_blendPixel (hready : st.initialized = true) (hon : OnScreen st.info x y) :
    framebufferGetPixel (framebufferBlendPixel st x y color alpha).2 x y =
      some (blended st.info color alpha (pixel st x.toNat y.toNat)) := by
  have hstore : ∀ c, framebufferGetPixel (framebufferSetPixel st x y c).2 x y = some c := by
    intro c
    rw [framebufferSetPixel_on hready hon, framebufferGetPixel_storePixel hready hon,
      pixel_storePixel_same]
  unfold framebufferBlendPixel blended
  rw [framebufferGetPixel_on hready hon]
  dsimp only
  split_ifs
  · exact framebufferGetPixel_on hready hon
  · exact hstore color
  · exact hstore _

theorem blended_between_iff {info : FramebufferInfo} (F : FormatFits info) (destination : UInt32)
    {f : Field} (hf : f ∈ channelFields info) :
    Between (f.get destination.toNat) (f.get color.toNat)
        (f.get (blended info color alpha destination).toNat) ↔
      Blends alpha.toNat (f.get color.toNat) (f.get destination.toNat) := by
  unfold blended
  split_ifs with hzero hfull
  · refine iff_of_true ⟨min_le_left _ _, le_max_left _ _⟩ (Or.inl ?_)
    rw [hzero]
    rfl
  · refine iff_of_true ⟨min_le_right _ _, le_max_right _ _⟩ (Or.inr (Or.inl ?_))
    rw [hfull]
    rfl
  · have hne : alpha.toNat ≠ 0 := fun h => hzero (UInt8.toNat_inj.mp h)
    have hne' : alpha.toNat ≠ 255 := fun h => hfull (UInt8.toNat_inj.mp h)
    have hlt := alpha.toNat_lt
    rw [(blendColor_fields F color destination alpha).1 f hf]
    exact encode_mean_between_iff (F.fits f hf).1 (by omega) (by omega) (f.get_lt _) (f.get_lt _)

/-- Each field of a blended pixel lies between those of the pixel and of the colour, exactly when
the fields blend; a colour blended over itself then stays. -/
theorem blendPixel_between_iff (hready : st.initialized = true) (F : FormatFits st.info)
    (hon : OnScreen st.info x y) {destination : UInt32}
    (hdestination : framebufferGetPixel st x y = some destination)
    (hwithin : Within (channelFields st.info) destination.toNat)
    (hcolor : Within (channelFields st.info) color.toNat) (alpha : UInt8) :
    (∃ result, framebufferGetPixel (framebufferBlendPixel st x y color alpha).2 x y =
        some result ∧
      (∀ f ∈ channelFields st.info,
        Between (f.get destination.toNat) (f.get color.toNat) (f.get result.toNat)) ∧
      (color = destination → result = destination)) ↔
      ∀ f ∈ channelFields st.info,
        Blends alpha.toNat (f.get color.toNat) (f.get destination.toNat) := by
  rw [framebufferGetPixel_on hready hon] at hdestination
  obtain rfl := Option.some.inj hdestination
  rw [getPixel_blendPixel hready hon]
  constructor
  · rintro ⟨result, heq, hbetween, -⟩ f hf
    obtain rfl := Option.some.inj heq
    exact (blended_between_iff F _ hf).mp (hbetween f hf)
  · intro hblends
    have hbetween := fun f hf => (blended_between_iff F _ hf).mpr (hblends f hf)
    refine ⟨_, rfl, hbetween, ?_⟩
    rintro rfl
    have hresult : Within (channelFields st.info) (blended st.info
        (pixel st x.toNat y.toNat) alpha (pixel st x.toNat y.toNat)).toNat := by
      unfold blended
      split_ifs
      · exact hwithin
      · exact hwithin
      · exact (blendColor_fields F _ _ _).2
    refine UInt32.toNat_inj.mp (hresult.eq_of_get hwithin fun f hf => ?_)
    obtain ⟨hlower, hupper⟩ := hbetween f hf
    omega

/-- Five, six and five bits. -/
def highColorScreen : FramebufferState :=
  { smallScreen with info := ⟨16, 16, 64, 32, 11, 5, 0, 5, 6, 5⟩ }

/-- Ten bits each. -/
def deepColorScreen : FramebufferState :=
  { smallScreen with info := ⟨16, 16, 64, 32, 20, 10, 0, 10, 10, 10⟩ }

theorem blendPixel_between_iff_highColor :
    (∃ result, framebufferGetPixel (framebufferBlendPixel highColorScreen 3 4 0xf800 100).2 3 4 =
        some result ∧
      (∀ f ∈ channelFields highColorScreen.info,
        Between (f.get 0) (f.get 0xf800) (f.get result.toNat)) ∧
      ((0xf800 : UInt32) = 0 → result = 0)) := by
  have F : FormatFits highColorScreen.info := ⟨by decide, by decide⟩
  have hon : OnScreen highColorScreen.info 3 4 := by
    unfold OnScreen
    decide
  have hblack : Within (channelFields highColorScreen.info) 0 := by
    intro i hi
    rw [Nat.zero_testBit] at hi
    cases hi
  have hred : Within (channelFields highColorScreen.info) ((channelField 5 11).put 31) :=
    within_put (by decide) (by decide)
  refine (@blendPixel_between_iff highColorScreen 3 4 0xf800 rfl F hon 0 rfl hblack hred
    100).mpr fun f hf => Or.inr (Or.inr (Or.inl ?_))
  revert f
  decide

/-- Half of a colour over itself: the high bits of its red field are lost. -/
theorem blendPixel_loses_bits : FormatFits deepColorScreen.info ∧
    framebufferGetPixel (framebufferSetPixel deepColorScreen 0 0 0x3ff00000).2 0 0 =
      some 0x3ff00000 ∧
    framebufferGetPixel (framebufferBlendPixel
      (framebufferSetPixel deepColorScreen 0 0 0x3ff00000).2 0 0 0x3ff00000 128).2 0 0 =
      some 0x0ff00000 :=
  ⟨⟨by decide, by decide⟩, by decide +kernel, by decide +kernel⟩

end Pixels

end JsOs.PixelBlending

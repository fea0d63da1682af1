import JsOs.PixelBlending
import Mathlib.Tactic.IntervalCases

/-!
# Colours and their channels

`framebuffer_rgb` puts three channels into a colour and `color_channel` reads them out again. Of a
field of fewer than eight bits the high bits come back, spread over the whole range; what has been
read goes back into the same colour.
-/

namespace JsOs.ColorChannels

open MachineWords FramebufferModel BlendingModel BitFields PixelBlending

/-- What is read of a channel that has been written into a field of `n` bits. -/
def quantized (n v : ℕ) : ℕ := decode n (encode n v)

variable {n v : ℕ}

theorem quantized_wide (hn8 : 8 ≤ n) (hv : v ≤ 255) : quantized n v = v := by
  rw [quantized, encode, if_pos hn8, decode, if_pos hn8]
  exact Nat.mod_eq_of_lt (Nat.lt_succ_of_le hv)

/-- What has been read is written as it was. -/
theorem encode_quantized (hn : 1 ≤ n) (hv : v ≤ 255) : encode n (quantized n v) = encode n v := by
  by_cases hn8 : 8 ≤ n
  · rw [quantized_wide hn8 hv]
  · exact encode_decode hn (by omega) (encode_lt hn hv)

/-- The two values share their high bits. -/
theorem quantized_near (hn : 1 ≤ n) (hv : v ≤ 255) :
    quantized n v < v + 2 ^ (8 - n) ∧ v < quantized n v + 2 ^ (8 - n) := by
  have hsame := encode_quantized hn hv
  by_cases hn8 : 8 ≤ n
  · have hone := Nat.two_pow_pos (8 - n)
    rw [quantized_wide hn8 hv]
    omega
  · unfold encode at hsame
    rw [if_neg hn8, if_neg hn8] at hsame
    have hpos := Nat.two_pow_pos (8 - n)
    have h₁ := Nat.div_add_mod (quantized n v) (2 ^ (8 - n))
    have h₂ := Nat.div_add_mod v (2 ^ (8 - n))
    have h₃ := Nat.mod_lt (quantized n v) hpos
    have h₄ := Nat.mod_lt v hpos
    rw [hsame] at h₁
    omega

theorem quantized_zero (n : ℕ) : quantized n 0 = 0 := by
  unfold quantized encode decode
  split_ifs <;> simp

/-- All the bits of the field are set, and are read as the greatest value. -/
theorem quantized_max (hn : 1 ≤ n) : quantized n 255 = 255 := by
  by_cases hn8 : 8 ≤ n
  · exact quantized_wide hn8 (le_refl 255)
  · interval_cases n <;> decide

section Formats

variable {info : FramebufferInfo} {red green blue : UInt8} {color : UInt32}

/-- What is read of a channel: it shares the bits that the field has room for, and black and white
stay. -/
structure Read (size value read : UInt8) : Prop where
  above : read.toNat < value.toNat + 2 ^ (8 - size.toNat)
  below : value.toNat < read.toNat + 2 ^ (8 - size.toNat)
  zero : value = 0 → read = 0
  full : value = 255 → read = 255

theorem read_of_quantized {size value read : UInt8} (hsize : 1 ≤ size.toNat)
    (h : read.toNat = quantized size.toNat value.toNat) : Read size value read where
  above := by
    rw [h]
    exact (quantized_near hsize (Nat.le_of_lt_succ value.toNat_lt)).1
  below := by
    rw [h]
    exact (quantized_near hsize (Nat.le_of_lt_succ value.toNat_lt)).2
  zero hzero := by
    rw [hzero] at h
    exact UInt8.toNat_inj.mp (h.trans (quantized_zero _))
  full hfull := by
    rw [hfull] at h
    exact UInt8.toNat_inj.mp (h.trans (quantized_max hsize))

/-- A colour is made of its fields. -/
theorem framebufferRgb_eq_iff (F : FormatFits info) (hcolor : Within (channelFields info) color.toNat) :
    framebufferRgb info red green blue = color ↔
      encode info.redSize.toNat red.toNat =
          (channelField info.redSize info.redShift).get color.toNat ∧
        encode info.greenSize.toNat green.toNat =
          (channelField info.greenSize info.greenShift).get color.toNat ∧
        encode info.blueSize.toNat blue.toNat =
          (channelField info.blueSize info.blueShift).get color.toNat := by
  obtain ⟨⟨hr, hg, hb⟩, hwithin⟩ := framebufferRgb_fields F red green blue
  rw [← hr, ← hg, ← hb]
  constructor
  · rintro rfl
    exact ⟨rfl, rfl, rfl⟩
  · rintro ⟨hred, hgreen, hblue⟩
    refine UInt32.toNat_inj.mp (hwithin.eq_of_get hcolor fun f hf => ?_)
    simp only [channelFields, List.mem_cons, List.not_mem_nil, or_false] at hf
    rcases hf with rfl | rfl | rfl
    · exact hred
    · exact hgreen
    · exact hblue

/-- Each channel of a colour that has been put together, and the colour put together of the channels
that have been read. -/
theorem rgb_channels (F : FormatFits info) (red green blue : UInt8) :
    ∃ red' green' blue',
      colorChannel (framebufferRgb info red green blue) info.redSize info.redShift = red' ∧
      colorChannel (framebufferRgb info red green blue) info.greenSize info.greenShift = green' ∧
      colorChannel (framebufferRgb info red green blue) info.blueSize info.blueShift = blue' ∧
      Read info.redSize red red' ∧ Read info.greenSize green green' ∧
      Read info.blueSize blue blue' ∧
      framebufferRgb info red' green' blue' = framebufferRgb info red green blue := by
  obtain ⟨⟨hr, hg, hb⟩, hwithin⟩ := framebufferRgb_fields F red green blue
  have hmem : channelField info.redSize info.redShift ∈ channelFields info ∧
      channelField info.greenSize info.greenShift ∈ channelFields info ∧
      channelField info.blueSize info.blueShift ∈ channelFields info := by simp [channelFields]
  have hread {size shift value : UInt8} (hfield : channelField size shift ∈ channelFields info)
      (hvalue : (channelField size shift).get (framebufferRgb info red green blue).toNat =
        encode size.toNat value.toNat) :
      (colorChannel (framebufferRgb info red green blue) size shift).toNat =
        quantized size.toNat value.toNat := by
    rw [colorChannel_toNat (F.field hfield).1 (F.field hfield).2]
    exact congrArg (decode size.toNat) hvalue
  refine ⟨_, _, _, rfl, rfl, rfl, ?_, ?_, ?_, ?_⟩
  · exact read_of_quantized (F.field hmem.1).1 (hread hmem.1 hr)
  · exact read_of_quantized (F.field hmem.2.1).1 (hread hmem.2.1 hg)
  · exact read_of_quantized (F.field hmem.2.2).1 (hread hmem.2.2 hb)
  · rw [framebufferRgb_eq_iff F hwithin, hr, hg, hb, hread hmem.1 hr, hread hmem.2.1 hg,
      hread hmem.2.2 hb]
    exact ⟨encode_quantized (F.field hmem.1).1 (Nat.le_of_lt_succ red.toNat_lt),
      encode_quantized (F.field hmem.2.1).1 (Nat.le_of_lt_succ green.toNat_lt),
      encode_quantized (F.field hmem.2.2).1 (Nat.le_of_lt_succ blue.toNat_lt)⟩

/-- A field of at most eight bits comes back. -/
theorem encode_decode_byte {size shift : UInt8} (hsize : 1 ≤ size.toNat) (hbyte : size.toNat ≤ 8)
    (hfits : shift.toNat + size.toNat ≤ 32) (color : UInt32) :
    encode size.toNat (colorChannel color size shift).toNat =
      (channelField size shift).get color.toNat := by
  have hlt := channelField_get_lt size shift color.toNat
  rw [colorChannel_toNat hsize hfits]
  rcases Nat.lt_or_eq_of_le hbyte with h8 | h8
  · exact encode_decode hsize h8 hlt
  · rw [h8] at hlt ⊢
    exact Nat.mod_eq_of_lt hlt

/-- Channels come back from a colour as well as its fields allow, and put together again they are
the same colour; so is every colour without other bits, where no field is wider than a byte. -/
theorem colors_roundTrip (F : FormatFits info) :
    (∀ red green blue, ∃ red' green' blue',
      colorChannel (framebufferRgb info red green blue) info.redSize info.redShift = red' ∧
      colorChannel (framebufferRgb info red green blue) info.greenSize info.greenShift = green' ∧
      colorChannel (framebufferRgb info red green blue) info.blueSize info.blueShift = blue' ∧
      Read info.redSize red red' ∧ Read info.greenSize green green' ∧
      Read info.blueSize blue blue' ∧
      framebufferRgb info red' green' blue' = framebufferRgb info red green blue) ∧
    ((∀ f ∈ channelFields info, f.size ≤ 8) →
      ∀ color, Within (channelFields info) color.toNat →
        framebufferRgb info (colorChannel color info.redSize info.redShift)
          (colorChannel color info.greenSize info.greenShift)
          (colorChannel color info.blueSize info.blueShift) = color) := by
  refine ⟨rgb_channels F, fun hbytes color hcolor => ?_⟩
  have hfield {size shift : UInt8} (hmem : channelField size shift ∈ channelFields info) :=
    encode_decode_byte (F.field hmem).1 (hbytes _ hmem) (F.field hmem).2 color
  rw [framebufferRgb_eq_iff F hcolor]
  exact ⟨hfield (by simp [channelFields]), hfield (by simp [channelFields]),
    hfield (by simp [channelFields])⟩

/-- Five, six and five bits. -/
theorem colors_roundTrip_highColor :
    ∃ red', colorChannel (framebufferRgb highColorScreen.info 255 100 7) highColorScreen.info.redSize
        highColorScreen.info.redShift = red' ∧ red' = 255 := by
  have F : FormatFits highColorScreen.info := ⟨by decide, by decide⟩
  obtain ⟨red', _, _, hred, _, _, hread, _⟩ := (colors_roundTrip F).1 255 100 7
  exact ⟨red', hred, hread.full rfl⟩

end Formats

end JsOs.ColorChannels

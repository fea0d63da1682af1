import JsOs.DrawingModel

/-!
# Blending

`framebuffer_blend_pixel` and `framebuffer_put_rgba`. The pixels of an image are a byte array, or
null; reading behind its end has no result, nor has a signed overflow.
-/

namespace JsOs.BlendingModel

open CountedLoops MachineWords FramebufferModel DrawingModel

def colorChannel (color : UInt32) (size shift : UInt8) : UInt8 :=
  if size = 0 then 0
  else
    let mask : UInt32 := if size ≥ 32 then 0xffffffff else (1 <<< size.toUInt32) - 1
    let value := (color >>> shift.toUInt32) &&& mask
    if size ≥ 8 then value.toUInt8 else ((value * 255) / mask).toUInt8

/-- The variables `red`, `green` and `blue` of `framebuffer_blend_pixel`. -/
def blendChannel (color destination : UInt32) (size shift alpha : UInt8) : UInt8 :=
  let inverse := 255 - alpha.toUInt32
  (((colorChannel color size shift).toUInt32 * alpha.toUInt32 +
    (colorChannel destination size shift).toUInt32 * inverse + 127) / 255).toUInt8

/-- The colour that is stored when `alpha` is neither 0 nor 255. -/
def blendColor (info : FramebufferInfo) (color destination : UInt32) (alpha : UInt8) : UInt32 :=
  framebufferRgb info (blendChannel color destination info.redSize info.redShift alpha)
    (blendChannel color destination info.greenSize info.greenShift alpha)
    (blendChannel color destination info.blueSize info.blueShift alpha)

def framebufferBlendPixel (st : FramebufferState) (x y : ℤ) (color : UInt32) (alpha : UInt8) :
    Bool × FramebufferState :=
  match framebufferGetPixel st x y with
  | none => (false, st)
  | some destination =>
    if alpha = 0 then (true, st)
    else if alpha = 255 then framebufferSetPixel st x y color
    else framebufferSetPixel st x y (blendColor st.info color destination alpha)

/-- The body of the loops of `framebuffer_put_rgba`. -/
def putPixel (x y : ℤ) (width : ℕ) (pixels : List UInt8) (row column : ℕ) (st : FramebufferState) :
    Option FramebufferState := do
  let offset := mul64 (add64 (mul64 row width) column) 4
  let color := framebufferRgb st.info (← pixels[offset]?) (← pixels[add64 offset 1]?)
    (← pixels[add64 offset 2]?)
  let alpha ← pixels[add64 offset 3]?
  some (framebufferBlendPixel st (← checkInt64 (x + column)) (← checkInt64 (y + row)) color alpha).2

/-- The parameter `length` is the length of the array. -/
def framebufferPutRgba (st : FramebufferState) (x y : ℤ) (width height : UInt32) :
    Option (List UInt8) → Option FramebufferState
  | none => some st
  | some pixels =>
    if width = 0 ∨ height = 0 ∨ mul64 width.toNat height.toNat > pixels.length / 4 then some st
    else
      forRangeM 0 height.toNat (fun row =>
        forRangeM 0 width.toNat fun column => putPixel x y width.toNat pixels row column) st

end JsOs.BlendingModel

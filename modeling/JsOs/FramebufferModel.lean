import JsOs.ByteMemory
import JsOs.MachineWords

/-!
# The framebuffer

Pixels are 32-bit words in byte memory, `pitch` bytes from row to row. The accelerated fill and
copy of the VMware adapter are not part of the repository; they are a parameter, which answers
with the state after the operation, or with nothing where the driver returns false. A signed
operation that overflows has no result.
-/

namespace JsOs.FramebufferModel

open CountedLoops ByteMemory MachineWords

structure FramebufferInfo where
  width : ℕ
  height : ℕ
  pitch : ℕ
  bpp : ℕ
  redShift : UInt8
  greenShift : UInt8
  blueShift : UInt8
  redSize : UInt8
  greenSize : UInt8
  blueSize : UInt8
  deriving DecidableEq, Repr

structure FramebufferState where
  memory : Memory
  address : ℕ
  info : FramebufferInfo
  cursorColumn : ℕ
  cursorRow : ℕ
  foreground : UInt32
  background : UInt32
  initialized : Bool

structure SvgaInfo where
  available : Bool
  width : ℕ
  height : ℕ
  pitch : ℕ
  bitsPerPixel : ℕ
  deriving DecidableEq, Repr

/-- The accelerated driver: start column and row, width, height and colour of a fill; source and
destination corner, width and height of a copy. -/
structure Svga where
  info : SvgaInfo
  rectFill : FramebufferState → ℕ → ℕ → ℕ → ℕ → UInt32 → Option FramebufferState
  rectCopy : FramebufferState → ℕ → ℕ → ℕ → ℕ → ℕ → ℕ → Option FramebufferState

/-- No adapter. -/
def Svga.absent : Svga := ⟨⟨false, 0, 0, 0, 0⟩, fun _ _ _ _ _ _ => none, fun _ _ _ _ _ _ _ => none⟩

/-- The fields of a `limine_framebuffer` that `framebuffer_init` reads. -/
structure LimineFramebuffer where
  address : ℕ
  width : ℕ
  height : ℕ
  pitch : ℕ
  bpp : ℕ
  memoryModel : ℕ
  redMaskSize : UInt8
  redMaskShift : UInt8
  greenMaskSize : UInt8
  greenMaskShift : UInt8
  blueMaskSize : UInt8
  blueMaskShift : UInt8
  deriving DecidableEq, Repr

def limineFramebufferRgb : ℕ := 1

def channel (value size shift : UInt8) : UInt32 :=
  if size = 0 then 0
  else
    let scaled := if size ≥ 8 then value else value >>> (8 - size)
    scaled.toUInt32 <<< shift.toUInt32

def framebufferRgb (info : FramebufferInfo) (red green blue : UInt8) : UInt32 :=
  channel red info.redSize info.redShift ||| channel green info.greenSize info.greenShift |||
    channel blue info.blueSize info.blueShift

def framebufferInit (st : FramebufferState) (framebuffer : Option LimineFramebuffer) :
    Bool × FramebufferState :=
  match framebuffer with
  | none => (false, st)
  | some framebuffer =>
    if framebuffer.address = 0 ∨ framebuffer.memoryModel ≠ limineFramebufferRgb ∨
        framebuffer.bpp ≠ 32 ∨ framebuffer.width = 0 ∨ framebuffer.height = 0 ∨
        framebuffer.pitch < mul64 framebuffer.width 4 then (false, st)
    else
      let info : FramebufferInfo :=
        { width := framebuffer.width
          height := framebuffer.height
          pitch := framebuffer.pitch
          bpp := framebuffer.bpp
          redShift := framebuffer.redMaskShift
          greenShift := framebuffer.greenMaskShift
          blueShift := framebuffer.blueMaskShift
          redSize := framebuffer.redMaskSize
          greenSize := framebuffer.greenMaskSize
          blueSize := framebuffer.blueMaskSize }
      (true,
        { st with
          address := framebuffer.address
          info := info
          foreground := framebufferRgb info 235 239 244
          background := framebufferRgb info 16 18 20
          cursorColumn := 1
          cursorRow := 1
          initialized := true })

/-- The four bytes of a word have consecutive addresses, and those wrap. -/
def loadWord (m : Memory) (a : ℕ) : ℕ := load (fun i => m (add64 a i)) 0 4

def storeWord (m : Memory) (a v : ℕ) : Memory := fun x =>
  if x < 2 ^ 64 ∧ sub64 x a < 4 then UInt8.ofNat (v / 256 ^ sub64 x a) else m x

section Drawing

variable (svga : Svga) (st : FramebufferState)

def framebufferAccelerated : Bool :=
  svga.info.available && svga.info.width == st.info.width && svga.info.height == st.info.height &&
    svga.info.pitch == st.info.pitch && svga.info.bitsPerPixel == st.info.bpp

def pixelAddress (x y : ℕ) : ℕ := add64 (add64 st.address (mul64 y st.info.pitch)) (mul64 x 4)

def pixel (x y : ℕ) : UInt32 := UInt32.ofNat (loadWord st.memory (pixelAddress st x y))

def storePixel (x y : ℕ) (color : UInt32) : FramebufferState :=
  { st with memory := storeWord st.memory (pixelAddress st x y) color.toNat }

/-- The pixel loops of `framebuffer_fill_rect` and `framebuffer_clear`. -/
def paintRows (startX endX startY endY : ℕ) (color : UInt32) : FramebufferState :=
  forRange startY endY (fun row st =>
    forRange startX endX (fun column st => storePixel st column row color) st) st

def framebufferClear (color : UInt32) : FramebufferState :=
  if !st.initialized then st
  else
    let accelerated := if framebufferAccelerated svga st then
      svga.rectFill st 0 0 (st.info.width % 2 ^ 32) (st.info.height % 2 ^ 32) color else none
    match accelerated with
    | some st => st
    | none => paintRows st 0 st.info.width 0 st.info.height color

/-- The variable `end` of `clip_axis`. -/
def clipEnd (start length : ℤ) : Option ℤ :=
  (checkInt64 (int64Max - start)).bind fun room =>
    if length > room then some int64Max else checkInt64 (start + length)

/-- The outer `none` is a signed overflow, the inner one the result false. -/
def clipAxis (start length : ℤ) (maximum : ℕ) : Option (Option (ℕ × ℕ)) :=
  if length ≤ 0 ∨ start ≥ toInt64 maximum then some none
  else (clipEnd start length).bind fun stop =>
    if stop ≤ 0 then some none
    else
      let clippedStart := if start < 0 then 0 else start.toNat
      let clippedEnd := if stop > toInt64 maximum then maximum else stop.toNat
      some (if clippedStart < clippedEnd then some (clippedStart, clippedEnd) else none)

/-- What `framebuffer_fill_rect` does with the clipped rectangle. -/
def fillClipped (startX endX startY endY : ℕ) (color : UInt32) : FramebufferState :=
  let accelerated :=
    if mul64 (sub64 endX startX) (sub64 endY startY) ≥ 256 ∧ framebufferAccelerated svga st then
      svga.rectFill st (startX % 2 ^ 32) (startY % 2 ^ 32) (sub64 endX startX % 2 ^ 32)
        (sub64 endY startY % 2 ^ 32) color
    else none
  match accelerated with
  | some st => st
  | none => paintRows st startX endX startY endY color

def framebufferFillRect (x y width height : ℤ) (color : UInt32) : Option FramebufferState :=
  if !st.initialized then some st
  else (clipAxis x width st.info.width).bind fun
    | none => some st
    | some (startX, endX) => (clipAxis y height st.info.height).bind fun
      | none => some st
      | some (startY, endY) => some (fillClipped svga st startX endX startY endY color)

def framebufferStrokeRect (x y width height : ℤ) (color thickness : UInt32) :
    Option FramebufferState :=
  if thickness = 0 ∨ width ≤ 0 ∨ height ≤ 0 then some st
  else do
    let t : ℤ := thickness.toNat
    let st ← framebufferFillRect svga st x y width t color
    let bottom ← checkInt64 ((← checkInt64 (y + height)) - t)
    let st ← framebufferFillRect svga st x bottom width t color
    let st ← framebufferFillRect svga st x y t height color
    let right ← checkInt64 ((← checkInt64 (x + width)) - t)
    framebufferFillRect svga st right y t height color

end Drawing

end JsOs.FramebufferModel

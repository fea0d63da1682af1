import JsOs.ConsoleModel

/-!
# Drawing and measuring text

`framebuffer_text` and `framebuffer_measure_text`. The outline fonts are not part of the repository;
they are a parameter, and so is what `framebuffer_fill_rect` does, since only its arguments are of
interest. A text is its bytes without the terminating NUL.
-/

namespace JsOs.TextModel

open CountedLoops MachineWords FramebufferModel ConsoleFont ConsoleModel

/-- Nothing is returned where the C functions return false. -/
structure Fonts where
  drawText : FramebufferState → ℤ → ℤ → List UInt8 → UInt32 → UInt32 → Option FramebufferState
  measureText : Option (List UInt8) → UInt32 → Option (ℕ × ℕ)

def Fonts.absent : Fonts := ⟨fun _ _ _ _ _ _ => none, fun _ _ => none⟩

/-- The first four arguments of `framebuffer_fill_rect`. -/
structure Rect where
  x : ℤ
  y : ℤ
  width : ℤ
  height : ℤ
  deriving DecidableEq, Repr

/-- The rectangles that were filled are kept for the record. Without a frame a signed operation has
overflowed, and nothing more is drawn. -/
structure TextDrawing where
  frame : Option FramebufferState
  filled : List Rect

section Drawing

variable (fillRect : FramebufferState → ℤ → ℤ → ℤ → ℤ → UInt32 → Option FramebufferState)

/-- The body of the loops of `framebuffer_character`. -/
def characterPixel (x y : ℤ) (character : UInt8) (color scale : UInt32) (row column : ℕ)
    (d : TextDrawing) : TextDrawing :=
  if (glyphRow character row).testBit column then
    match d.frame, checkInt64 (x + column * scale.toNat), checkInt64 (y + row * scale.toNat) with
    | some st, some left, some top =>
      ⟨fillRect st left top scale.toNat scale.toNat color,
        d.filled ++ [⟨left, top, scale.toNat, scale.toNat⟩]⟩
    | _, _, _ => ⟨none, d.filled⟩
  else d

def framebufferCharacter (x y : ℤ) (character : UInt8) (color scale : UInt32) (d : TextDrawing) :
    TextDrawing :=
  let character := shownCharacter character
  forRange 0 8 (fun row =>
    forRange 0 8 fun column => characterPixel fillRect x y character color scale row column) d

def textFrom (originX : ℤ) (color scale : UInt32) :
    List UInt8 → ℤ → ℤ → TextDrawing → TextDrawing
  | [], _, _, d => d
  | character :: text, x, y, d =>
    if character == 10 then
      match checkInt64 (y + 8 * scale.toNat) with
      | some y => textFrom originX color scale text originX y d
      | none => ⟨none, d.filled⟩
    else
      let d := framebufferCharacter fillRect x y character color scale d
      match checkInt64 (x + 8 * scale.toNat) with
      | some x => textFrom originX color scale text x y d
      | none => ⟨none, d.filled⟩

/-- A null text is `none`. -/
def framebufferText (fonts : Fonts) (st : FramebufferState) (x y : ℤ) (text : Option (List UInt8))
    (color scale : UInt32) : TextDrawing :=
  match text with
  | none => ⟨some st, []⟩
  | some text =>
    if !st.initialized ∨ scale = 0 ∨ scale > 32 then ⟨some st, []⟩
    else
      match fonts.drawText st x y text color (scale * 8) with
      | some st => ⟨some st, []⟩
      | none => textFrom fillRect x color scale text x y ⟨some st, []⟩

end Drawing

/-- The variables `maximum` and `lines` of `framebuffer_measure_text`. -/
def measureFrom : List UInt8 → ℕ → ℕ → ℕ → ℕ × ℕ
  | [], current, maximum, lines => (if current > maximum then current else maximum, lines)
  | character :: text, current, maximum, lines =>
    if character == 10 then
      measureFrom text 0 (if current > maximum then current else maximum) (add64 lines 1)
    else measureFrom text (add64 current 1) maximum lines

/-- The pointers for the width and the height are not null. -/
def framebufferMeasureText (fonts : Fonts) (text : Option (List UInt8)) (scale : UInt32) : ℕ × ℕ :=
  (fonts.measureText text (scale * 8)).getD <|
    let measured := measureFrom (text.getD []) 0 0 1
    (mul64 (mul64 measured.1 8) scale.toNat, mul64 (mul64 measured.2 8) scale.toNat)

end JsOs.TextModel

import JsOs.ConsoleFont
import JsOs.FramebufferModel

/-!
# The text console

Cells of 8 by 16 pixels over the framebuffer. What `console_write_n` also sends to the serial
port is left out.
-/

namespace JsOs.ConsoleModel

open CountedLoops ByteMemory MachineWords FramebufferModel ConsoleFont

def consoleCellWidth : ℕ := 8
def consoleCellHeight : ℕ := 16

@[simp] theorem consoleCellWidth_eq : consoleCellWidth = 8 := rfl
@[simp] theorem consoleCellHeight_eq : consoleCellHeight = 16 := rfl

section Console

variable (svga : Svga) (st : FramebufferState)

def consoleClear (background : UInt32) : FramebufferState :=
  let st := { st with background := background }
  let st := framebufferClear svga st background
  { st with cursorColumn := 1, cursorRow := 1 }

def consoleSetColors (foreground background : UInt32) : FramebufferState :=
  { st with foreground := foreground, background := background }

def consoleSetCursor (column row : ℕ) : FramebufferState :=
  { st with cursorColumn := column, cursorRow := row }

/-- Nothing is returned where the C function returns false. -/
def framebufferCopyRect (sourceX sourceY destinationX destinationY : ℤ) (width height : ℕ) :
    Option FramebufferState :=
  if !st.initialized ∨ sourceX < 0 ∨ sourceY < 0 ∨ destinationX < 0 ∨ destinationY < 0 ∨
      !framebufferAccelerated svga st then none
  else svga.rectCopy st (sourceX.toNat % 2 ^ 32) (sourceY.toNat % 2 ^ 32)
    (destinationX.toNat % 2 ^ 32) (destinationY.toNat % 2 ^ 32) width height

/-- The pixel loops of `console_scroll`. -/
def copyRowsUp (pixels : ℕ) : FramebufferState :=
  forRange 0 (sub64 st.info.height pixels) (fun y st =>
    forRange 0 st.info.width (fun x st => storePixel st x y (pixel st x (add64 y pixels))) st) st

def consoleScroll : Option FramebufferState :=
  let pixels := consoleCellHeight
  if !st.initialized ∨ st.info.height ≤ pixels then some st
  else
    let copied := framebufferCopyRect svga st 0 pixels 0 0 (st.info.width % 2 ^ 32)
      (sub64 st.info.height pixels % 2 ^ 32)
    let st := copied.getD (copyRowsUp st pixels)
    (framebufferFillRect svga st 0 (toInt64 (sub64 st.info.height pixels)) (toInt64 st.info.width)
      pixels st.background).map fun st =>
        if st.cursorRow > 0 then { st with cursorRow := st.cursorRow - 1 } else st

/-- The fill of a whole cell. -/
def fillCell (column row : ℕ) (color : UInt32) : Option FramebufferState :=
  framebufferFillRect svga st (toInt64 (mul64 column consoleCellWidth))
    (toInt64 (mul64 row consoleCellHeight)) consoleCellWidth consoleCellHeight color

def consoleSetCursorVisible (visible : Bool) : Option FramebufferState :=
  if !st.initialized then some st
  else fillCell svga st st.cursorColumn st.cursorRow
    (if visible then st.foreground else st.background)

/-- The body of the two loops of `console_character`. -/
def fillGlyphPixel (x y : ℤ) (character : UInt8) (glyphY glyphX : ℕ) : Option FramebufferState :=
  if (glyphRow character glyphY).testBit glyphX then
    (checkInt64 (x + glyphX)).bind fun x =>
      (checkInt64 (y + glyphY * 2)).bind fun y => framebufferFillRect svga st x y 1 2 st.foreground
  else some st

/-- Bytes outside ASCII are shown as a question mark. -/
def shownCharacter (character : UInt8) : UInt8 := if character ≥ 128 then 63 else character

def consoleCharacter (column row : ℕ) (character : UInt8) : Option FramebufferState :=
  let character := shownCharacter character
  let x := toInt64 (mul64 column consoleCellWidth)
  let y := toInt64 (mul64 row consoleCellHeight)
  (fillCell svga st column row st.background).bind
    (forRangeM 0 8 fun glyphY => forRangeM 0 8 fun glyphX st =>
      fillGlyphPixel svga st x y character glyphY glyphX)

/-- The cursor after a backspace. -/
def stepBack (columns : ℕ) : FramebufferState :=
  if st.cursorColumn > 0 then { st with cursorColumn := st.cursorColumn - 1 }
  else if st.cursorRow > 0 ∧ columns > 0 then
    { st with cursorRow := st.cursorRow - 1, cursorColumn := columns - 1 }
  else st

def nextLine : FramebufferState :=
  { st with cursorColumn := 0, cursorRow := add64 st.cursorRow 1 }

/-- A character and the step of the cursor behind it. -/
def putCharacter (columns : ℕ) (character : UInt8) : Option FramebufferState :=
  (consoleCharacter svga st st.cursorColumn st.cursorRow character).map fun st =>
    let st := { st with cursorColumn := add64 st.cursorColumn 1 }
    if st.cursorColumn ≥ columns then nextLine st else st

/-- The body of the loop of `console_write_n`. -/
def consoleByte (columns rows : ℕ) (character : UInt8) : Option FramebufferState :=
  if character = 8 then
    let st := stepBack st columns
    fillCell svga st st.cursorColumn st.cursorRow st.background
  else if character = 13 then some { st with cursorColumn := 0 }
  else
    (if character = 10 then some (nextLine st) else putCharacter svga st columns character).bind
      fun st => if st.cursorRow ≥ rows then consoleScroll svga st else some st

/-- A null text is `none`. -/
def consoleWriteN (text : Option (List UInt8)) : Option FramebufferState :=
  match text with
  | none => some st
  | some text =>
    if !st.initialized then some st
    else
      let columns := st.info.width / consoleCellWidth
      let rows := st.info.height / consoleCellHeight
      text.foldlM (fun st character => consoleByte svga st columns rows character) st

end Console

end JsOs.ConsoleModel

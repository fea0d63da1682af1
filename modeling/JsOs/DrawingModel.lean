import JsOs.FramebufferModel

/-!
# Lines, circles and triangles

The shapes of the framebuffer, down to `framebuffer_set_pixel`. Next to the framebuffer a drawing
keeps, for the record, every point that was passed to it.
-/

namespace JsOs.DrawingModel

open CountedLoops MachineWords FramebufferModel

structure Drawing where
  frame : FramebufferState
  plotted : List (ℤ × ℤ)

/-- The pointer for the colour is not null; no colour is the result false. -/
def framebufferGetPixel (st : FramebufferState) (x y : ℤ) : Option UInt32 :=
  if !st.initialized ∨ x < 0 ∨ y < 0 ∨ x.toNat ≥ st.info.width ∨ y.toNat ≥ st.info.height then none
  else some (pixel st x.toNat y.toNat)

def framebufferSetPixel (st : FramebufferState) (x y : ℤ) (color : UInt32) :
    Bool × FramebufferState :=
  if !st.initialized ∨ x < 0 ∨ y < 0 ∨ x.toNat ≥ st.info.width ∨ y.toNat ≥ st.info.height then
    (false, st)
  else (true, storePixel st x.toNat y.toNat color)

/-- A call of `framebuffer_set_pixel` whose result is not used. -/
def plot (d : Drawing) (x y : ℤ) (color : UInt32) : Drawing :=
  ⟨(framebufferSetPixel d.frame x y color).2, d.plotted ++ [(x, y)]⟩

def absolute (value : ℤ) : Option ℤ := if value < 0 then checkInt64 (-value) else some value

section Lines

/-- The variables of `framebuffer_line` that its loop changes. -/
structure LineCursor where
  x0 : ℤ
  y0 : ℤ
  error : ℤ
  deriving DecidableEq, Repr

/-- The two `if` statements at the end of the loop of `framebuffer_line`. -/
def lineAdvance (dx sx dy sy : ℤ) (c : LineCursor) : Option LineCursor := do
  let doubled ← checkInt64 (c.error * 2)
  let c ← if doubled ≥ dy then do
      let error ← checkInt64 (c.error + dy)
      let x0 ← checkInt64 (c.x0 + sx)
      some { c with x0, error }
    else some c
  if doubled ≤ dx then do
    let error ← checkInt64 (c.error + dx)
    let y0 ← checkInt64 (c.y0 + sy)
    some { c with y0, error }
  else some c

def lineFrom (dx sx dy sy x1 y1 : ℤ) (color : UInt32) :
    ℕ → LineCursor → Drawing → Option Drawing
  | 0, _, _ => none
  | fuel + 1, c, d =>
    let d := plot d c.x0 c.y0 color
    if c.x0 = x1 ∧ c.y0 = y1 then some d
    else (lineAdvance dx sx dy sy c).bind fun c =>
      lineFrom dx sx dy sy x1 y1 color fuel c d

/-- A line that does not come back to a point ends within this many rounds. -/
def drawingFuel : ℕ := 2 ^ 64

def framebufferLine (d : Drawing) (x0 y0 x1 y1 : ℤ) (color : UInt32) : Option Drawing := do
  let dx ← absolute (← checkInt64 (x1 - x0))
  let sx : ℤ := if x0 < x1 then 1 else -1
  let dy ← checkInt64 (-(← absolute (← checkInt64 (y1 - y0))))
  let sy : ℤ := if y0 < y1 then 1 else -1
  let error ← checkInt64 (dx + dy)
  lineFrom dx sx dy sy x1 y1 color drawingFuel ⟨x0, y0, error⟩ d

end Lines

section Circles

/-- `framebuffer_line(cx - x, cy + y, cx + x, cy + y, color)`; for `cy - y` the second argument is
`-y`. -/
def circleSpan (d : Drawing) (cx cy x y : ℤ) (color : UInt32) : Option Drawing := do
  framebufferLine d (← checkInt64 (cx - x)) (← checkInt64 (cy + y)) (← checkInt64 (cx + x))
    (← checkInt64 (cy + y)) color

/-- `framebuffer_set_pixel(cx + x, cy + y, color)`; for differences the arguments are `-x` or `-y`. -/
def circlePixel (d : Drawing) (cx cy x y : ℤ) (color : UInt32) : Option Drawing := do
  some (plot d (← checkInt64 (cx + x)) (← checkInt64 (cy + y)) color)

def circlePoints (d : Drawing) (cx cy x y : ℤ) (color : UInt32) (filled : Bool) :
    Option Drawing :=
  if filled then do
    let d ← circleSpan d cx cy x y color
    let d ← circleSpan d cx cy x (-y) color
    let d ← circleSpan d cx cy y x color
    circleSpan d cx cy y (-x) color
  else do
    let d ← circlePixel d cx cy x y color
    let d ← circlePixel d cx cy (-x) y color
    let d ← circlePixel d cx cy x (-y) color
    let d ← circlePixel d cx cy (-x) (-y) color
    let d ← circlePixel d cx cy y x color
    let d ← circlePixel d cx cy (-y) x color
    let d ← circlePixel d cx cy y (-x) color
    circlePixel d cx cy (-y) (-x) color

structure CircleCursor where
  x : ℤ
  y : ℤ
  error : ℤ
  deriving DecidableEq, Repr

/-- The loop of `framebuffer_circle` after `circle_points`. -/
def circleAdvance (c : CircleCursor) : Option CircleCursor := do
  let y ← checkInt64 (c.y + 1)
  if c.error < 0 then do
    let increment ← checkInt64 ((← checkInt64 (2 * y)) + 1)
    some { c with y, error := ← checkInt64 (c.error + increment) }
  else do
    let x ← checkInt64 (c.x - 1)
    let increment ← checkInt64 ((← checkInt64 (2 * (← checkInt64 (y - x)))) + 1)
    some ⟨x, y, ← checkInt64 (c.error + increment)⟩

def circleFrom (centerX centerY : ℤ) (color : UInt32) (filled : Bool) :
    ℕ → CircleCursor → Drawing → Option Drawing
  | 0, _, _ => none
  | fuel + 1, c, d =>
    if c.x ≥ c.y then do
      let d ← circlePoints d centerX centerY c.x c.y color filled
      let c ← circleAdvance c
      circleFrom centerX centerY color filled fuel c d
    else some d

def framebufferCircle (d : Drawing) (centerX centerY radius : ℤ) (color : UInt32)
    (filled : Bool) : Option Drawing :=
  if radius < 0 then some d
  else do
    let error ← checkInt64 (1 - radius)
    circleFrom centerX centerY color filled drawingFuel ⟨radius, 0, error⟩ d

def fillRect (svga : Svga) (d : Drawing) (x y width height : ℤ) (color : UInt32) :
    Option Drawing :=
  (framebufferFillRect svga d.frame x y width height color).map fun st => { d with frame := st }

/-- The radius that `framebuffer_fill_rounded_rect` draws with. -/
def clampedRadius (width height radius : ℤ) : ℤ :=
  let maximumRadius := (if width < height then width else height) / 2
  let radius := if radius < 0 then 0 else radius
  if radius > maximumRadius then maximumRadius else radius

/-- The four calls of `framebuffer_circle` in `framebuffer_fill_rounded_rect`. -/
def cornerDiscs (d : Drawing) (left top right bottom radius : ℤ) (color : UInt32) :
    Option Drawing := do
  let d ← framebufferCircle d left top radius color true
  let d ← framebufferCircle d right top radius color true
  let d ← framebufferCircle d left bottom radius color true
  framebufferCircle d right bottom radius color true

def framebufferFillRoundedRect (svga : Svga) (d : Drawing) (x y width height radius : ℤ)
    (color : UInt32) : Option Drawing :=
  if width ≤ 0 ∨ height ≤ 0 then some d
  else
    let radius := clampedRadius width height radius
    if radius = 0 then fillRect svga d x y width height color
    else do
      let left ← checkInt64 (x + radius)
      let top ← checkInt64 (y + radius)
      let diameter ← checkInt64 (radius * 2)
      let d ← fillRect svga d left y (← checkInt64 (width - diameter)) height color
      let d ← fillRect svga d x top width (← checkInt64 (height - diameter)) color
      let right ← checkInt64 ((← checkInt64 ((← checkInt64 (x + width)) - radius)) - 1)
      let bottom ← checkInt64 ((← checkInt64 ((← checkInt64 (y + height)) - radius)) - 1)
      cornerDiscs d left top right bottom radius color

end Circles

section Triangles

def edge (ax ay bx byy px py : ℤ) : Option ℤ := do
  let left ← checkInt64 ((← checkInt64 (px - ax)) * (← checkInt64 (byy - ay)))
  let right ← checkInt64 ((← checkInt64 (py - ay)) * (← checkInt64 (bx - ax)))
  checkInt64 (left - right)

def least (a b c : ℤ) : ℤ := if a < b then (if a < c then a else c) else (if b < c then b else c)

def greatest (a b c : ℤ) : ℤ :=
  if a > b then (if a > c then a else c) else (if b > c then b else c)

/-- `if (value >= limit) value = limit - 1;`. -/
def clampLast (value limit : ℤ) : Option ℤ :=
  if value ≥ limit then checkInt64 (limit - 1) else some value

/-- The body of the loops of `framebuffer_fill_triangle`. -/
def trianglePixel (x0 y0 x1 y1 x2 y2 area : ℤ) (color : UInt32) (x y : ℤ) (d : Drawing) :
    Option Drawing := do
  let a ← edge x0 y0 x1 y1 x y
  let b ← edge x1 y1 x2 y2 x y
  let c ← edge x2 y2 x0 y0 x y
  some (if (area ≥ 0 ∧ a ≥ 0 ∧ b ≥ 0 ∧ c ≥ 0) ∨ (area < 0 ∧ a ≤ 0 ∧ b ≤ 0 ∧ c ≤ 0) then
    plot d x y color else d)

def framebufferFillTriangle (d : Drawing) (x0 y0 x1 y1 x2 y2 : ℤ) (color : UInt32) :
    Option Drawing := do
  let width := toInt64 d.frame.info.width
  let height := toInt64 d.frame.info.height
  let minX := if least x0 x1 x2 < 0 then 0 else least x0 x1 x2
  let minY := if least y0 y1 y2 < 0 then 0 else least y0 y1 y2
  let maxX ← clampLast (greatest x0 x1 x2) width
  let maxY ← clampLast (greatest y0 y1 y2) height
  let area ← edge x0 y0 x1 y1 x2 y2
  forUpTo minY maxY (fun y =>
    forUpTo minX maxX fun x => trianglePixel x0 y0 x1 y1 x2 y2 area color x y) d

end Triangles

end JsOs.DrawingModel

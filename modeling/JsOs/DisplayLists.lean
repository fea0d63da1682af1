import JsOs.ScreenConfinement

/-!
# Drawing calls as edits of a picture

What a drawing call makes of a pixel depends on the call, on the place and the format of the screen
and on the colour of this one pixel before. So a list of calls is one edit of all pictures, and two
lists that do not meet can change places.
-/

namespace JsOs.DisplayLists

open CountedLoops ByteMemory MachineWords FramebufferModel FramebufferPainting DrawingModel
open BlendingModel ConsoleRefinement TextModel ConsoleFont PixelStores PixelBlending ImageBlits
open ScreenConfinement TransitionRuns

/-- Another picture on the same screen. -/
structure OnPlace (place st : FramebufferState) : Prop where
  initialized : st.initialized = place.initialized
  address : st.address = place.address
  info : st.info = place.info

/-- An operation that is undefined whatever the picture is, or edits every picture in one way; `look`
finds the picture in a state. -/
def Draws {σ : Type} (place : FramebufferState) (look : σ → FramebufferState) (op : σ → Option σ) :
    Prop :=
  (∀ s, OnPlace place (look s) → op s = none) ∨
  ∃ f, ∀ s, OnPlace place (look s) → ∃ s', op s = some s' ∧ Edits f (look s) (look s')

variable {place st st' : FramebufferState} {f : ℕ → ℕ → UInt32 → UInt32}

theorem OnPlace.refl (place : FramebufferState) : OnPlace place place := ⟨rfl, rfl, rfl⟩

theorem OnPlace.screen (h : OnPlace place st) (S : Screen place) : Screen st :=
  S.of_eq h.initialized h.address h.info

theorem OnPlace.edits (h : OnPlace place st) (E : Edits f st st') : OnPlace place st' := by
  rw [E.frame]
  exact ⟨h.initialized, h.address, h.info⟩

open Classical in
theorem edits_of_paints {area : ℕ → ℕ → Prop} {color : UInt32} (P : Paints area color st st') :
    Edits (fun x y c => if area x y then color else c) st st' := by
  refine ⟨P.frame, fun px py hpx hpy => ?_⟩
  by_cases h : area px py
  · rw [if_pos h, P.inside px py hpx hpy h]
  · rw [if_neg h, P.outside px py hpx hpy h]

namespace Draws

variable {σ : Type} {look : σ → FramebufferState} {op op' : σ → Option σ}

theorem skip : Draws place look some := .inr ⟨fun _ _ c => c, fun s _ => ⟨s, rfl, .refl _⟩⟩

theorem undefined : Draws place look fun _ => none := .inl fun _ _ => rfl

theorem of_edits {op : σ → σ}
    (h : ∃ f, ∀ s, OnPlace place (look s) → Edits f (look s) (look (op s))) :
    Draws place look fun s => some (op s) := by
  obtain ⟨f, hf⟩ := h
  exact .inr ⟨f, fun s hs => ⟨op s, rfl, hf s hs⟩⟩

theorem congr (h : Draws place look op) (heq : ∀ s, OnPlace place (look s) → op' s = op s) :
    Draws place look op' := by
  rcases h with hnone | ⟨f, hf⟩
  · exact .inl fun s hs => (heq s hs).trans (hnone s hs)
  · refine .inr ⟨f, fun s hs => ?_⟩
    rw [heq s hs]
    exact hf s hs

/-- One operation after the other. -/
theorem bind (h : Draws place look op) (h' : Draws place look op') :
    Draws place look fun s => (op s).bind op' := by
  rcases h with hnone | ⟨f, hf⟩
  · exact .inl fun s hs => by simp only [hnone s hs, Option.bind_none]
  · rcases h' with hnone | ⟨g, hg⟩
    · refine .inl fun s hs => ?_
      obtain ⟨t, ht, E⟩ := hf s hs
      simp only [ht, Option.bind_some]
      exact hnone t (hs.edits E)
    · refine .inr ⟨fun x y c => g x y (f x y c), fun s hs => ?_⟩
      obtain ⟨t, ht, E⟩ := hf s hs
      obtain ⟨u, hu, E'⟩ := hg t (hs.edits E)
      exact ⟨u, by simp only [ht, Option.bind_some, hu], E.trans E'⟩

/-- A value that is computed from the arguments of the call. -/
theorem select {β : Type} (a : Option β) {op : β → σ → Option σ}
    (h : ∀ x, Draws place look (op x)) : Draws place look fun s => a.bind fun x => op x s := by
  cases a with
  | none => exact undefined
  | some x => exact h x

theorem ite (c : Prop) [Decidable c] (h : c → Draws place look op) (h' : ¬c → Draws place look op') :
    Draws place look fun s => if c then op s else op' s := by
  by_cases hc : c
  · simp only [if_pos hc]
    exact h hc
  · simp only [if_neg hc]
    exact h' hc

theorem countUpM {body : ℕ → σ → Option σ} (h : ∀ i, Draws place look (body i)) (n lo : ℕ) :
    Draws place look (CountedLoops.countUpM body n lo) := by
  induction n generalizing lo with
  | zero => exact skip
  | succ n ih => exact (h lo).bind (ih (lo + 1))

theorem forRangeM {body : ℕ → σ → Option σ} (h : ∀ i, Draws place look (body i)) (lo hi : ℕ) :
    Draws place look (CountedLoops.forRangeM lo hi body) := countUpM h (hi - lo) lo

theorem forUpTo {body : ℤ → σ → Option σ} (h : ∀ i, Draws place look (body i)) (lo hi : ℤ) :
    Draws place look (CountedLoops.forUpTo lo hi body) := forRangeM (fun i => h (lo + i)) 0 _

end Draws

section Pixels

variable {x y : ℤ} {color : UInt32}

theorem setPixel_edits (S : Screen st) (x y : ℤ) (color : UInt32) :
    Edits (fun px py c => if (px : ℤ) = x ∧ (py : ℤ) = y then color else c) st
      (framebufferSetPixel st x y color).2 := by
  by_cases hon : OnScreen st.info x y
  · rw [framebufferSetPixel_on S.initialized hon]
    obtain ⟨hx, hx', hy, hy'⟩ := hon
    have P := S.storePixel_paints x.toNat y.toNat color (by omega) (by omega)
    refine ⟨P.frame, fun px py hpx hpy => ?_⟩
    by_cases hat : (px : ℤ) = x ∧ (py : ℤ) = y
    · rw [if_pos hat]
      exact P.inside px py hpx hpy (by omega)
    · rw [if_neg hat]
      exact P.outside px py hpx hpy (by omega)
  · rw [framebufferSetPixel_off S.initialized hon]
    refine (Edits.refl st).congr fun px py hpx hpy c => (if_neg ?_).symm
    rintro ⟨rfl, rfl⟩
    exact hon (onScreen_natCast.mpr ⟨hpx, hpy⟩)

theorem setPixel_draws (S : Screen place) (x y : ℤ) (color : UInt32) :
    Draws place id fun st => some (framebufferSetPixel st x y color).2 :=
  .of_edits ⟨_, fun _ h => setPixel_edits (h.screen S) x y color⟩

theorem blendPixel_draws (S : Screen place) (x y : ℤ) (color : UInt32) (alpha : UInt8) :
    Draws place id fun st => some (framebufferBlendPixel st x y color alpha).2 := by
  refine .of_edits ⟨fun px py c =>
    if (px : ℤ) = x ∧ (py : ℤ) = y then blended place.info color alpha c else c, fun st h => ?_⟩
  have E := blendPixel_edits (h.screen S) x y color alpha
  rwa [h.info] at E

theorem plot_draws (S : Screen place) (x y : ℤ) (color : UInt32) :
    Draws place Drawing.frame fun d => some (plot d x y color) :=
  .of_edits ⟨_, fun _ h => setPixel_edits (h.screen S) x y color⟩

end Pixels

section Rectangles

variable {svga : Svga} (S : Screen place) (hsvga : FillsAlike svga)
include S hsvga

theorem framebufferClear_draws (color : UInt32) :
    Draws place id fun st => some (framebufferClear svga st color) :=
  .of_edits ⟨_, fun _ h => edits_of_paints ((h.screen S).framebufferClear_paints hsvga color)⟩

theorem fillRect_draws (x y width height : ℤ) (color : UInt32) :
    Draws place id fun st => framebufferFillRect svga st x y width height color := by
  have hready (st : FramebufferState) (h : OnPlace place st) : ¬(!st.initialized) = true := by
    simp [(h.screen S).initialized]
  have hinfo (st : FramebufferState) (h : OnPlace place (id st)) : st.info = place.info := h.info
  unfold framebufferFillRect
  cases hX : clipAxis x width place.info.width with
  | none => exact .congr .undefined fun st h => by rw [if_neg (hready st h), hinfo st h, hX]; rfl
  | some rangeX =>
    cases rangeX with
    | none => exact .congr .skip fun st h => by rw [if_neg (hready st h), hinfo st h, hX]; rfl
    | some rangeX =>
      cases hY : clipAxis y height place.info.height with
      | none =>
        refine .congr .undefined fun st h => ?_
        rw [if_neg (hready st h), hinfo st h, hX, Option.bind_some]
        dsimp only
        rw [hY, Option.bind_none]
      | some rangeY =>
        cases rangeY with
        | none =>
          refine .congr .skip fun st h => ?_
          rw [if_neg (hready st h), hinfo st h, hX, Option.bind_some]
          dsimp only
          rw [hY, Option.bind_some]
        | some rangeY =>
          obtain ⟨hltX, hleX⟩ := clipAxis_some S.width_lt hX
          obtain ⟨hltY, hleY⟩ := clipAxis_some S.height_lt hY
          have hclipped : Draws place id fun st =>
              some (fillClipped svga st rangeX.1 rangeX.2 rangeY.1 rangeY.2 color) :=
            .of_edits ⟨_, fun st h => edits_of_paints ((h.screen S).fillClipped_paints hsvga
              hltX.le (by rwa [h.info]) hltY.le (by rwa [h.info]))⟩
          refine hclipped.congr fun st h => ?_
          rw [if_neg (hready st h), hinfo st h, hX, Option.bind_some]
          dsimp only
          rw [hY, Option.bind_some]

theorem strokeRect_draws (x y width height : ℤ) (color thickness : UInt32) :
    Draws place id fun st => framebufferStrokeRect svga st x y width height color thickness :=
  .ite _ (fun _ => .skip) fun _ =>
    (fillRect_draws S hsvga _ _ _ _ _).bind <| .select _ fun _ => .select _ fun _ =>
      (fillRect_draws S hsvga _ _ _ _ _).bind <| (fillRect_draws S hsvga _ _ _ _ _).bind <|
        .select _ fun _ => .select _ fun _ => fillRect_draws S hsvga _ _ _ _ _

end Rectangles

section Shapes

theorem lineFrom_draws (S : Screen place) (dx sx dy sy x1 y1 : ℤ) (color : UInt32) (fuel : ℕ)
    (c : LineCursor) : Draws place Drawing.frame (lineFrom dx sx dy sy x1 y1 color fuel c) := by
  induction fuel generalizing c with
  | zero => exact .undefined
  | succ fuel ih =>
    exact (plot_draws S c.x0 c.y0 color).bind (.ite _ (fun _ => .skip) fun _ => .select _ ih)

theorem line_draws (S : Screen place) (x0 y0 x1 y1 : ℤ) (color : UInt32) :
    Draws place Drawing.frame fun d => framebufferLine d x0 y0 x1 y1 color :=
  .select _ fun _ => .select _ fun _ => .select _ fun _ => .select _ fun _ => .select _ fun _ =>
    .select _ fun _ => lineFrom_draws S _ _ _ _ _ _ _ _ _

theorem circleSpan_draws (S : Screen place) (cx cy x y : ℤ) (color : UInt32) :
    Draws place Drawing.frame fun d => circleSpan d cx cy x y color :=
  .select _ fun _ => .select _ fun _ => .select _ fun _ => .select _ fun _ => line_draws S _ _ _ _ _

theorem circlePixel_draws (S : Screen place) (cx cy x y : ℤ) (color : UInt32) :
    Draws place Drawing.frame fun d => circlePixel d cx cy x y color :=
  .select _ fun _ => .select _ fun _ => plot_draws S _ _ _

theorem circlePoints_draws (S : Screen place) (cx cy x y : ℤ) (color : UInt32) (filled : Bool) :
    Draws place Drawing.frame fun d => circlePoints d cx cy x y color filled := by
  have hspan := fun x y => circleSpan_draws S cx cy x y color
  have hpixel := fun x y => circlePixel_draws S cx cy x y color
  exact .ite _
    (fun _ => (hspan x y).bind <| (hspan x (-y)).bind <| (hspan y x).bind (hspan y (-x)))
    fun _ => (hpixel x y).bind <| (hpixel (-x) y).bind <| (hpixel x (-y)).bind <|
      (hpixel (-x) (-y)).bind <| (hpixel y x).bind <| (hpixel (-y) x).bind <|
      (hpixel y (-x)).bind (hpixel (-y) (-x))

theorem circleFrom_draws (S : Screen place) (cx cy : ℤ) (color : UInt32) (filled : Bool) (fuel : ℕ)
    (c : CircleCursor) : Draws place Drawing.frame (circleFrom cx cy color filled fuel c) := by
  induction fuel generalizing c with
  | zero => exact .undefined
  | succ fuel ih =>
    exact .ite _ (fun _ => (circlePoints_draws S cx cy c.x c.y color filled).bind (.select _ ih))
      fun _ => .skip

theorem circle_draws (S : Screen place) (cx cy radius : ℤ) (color : UInt32) (filled : Bool) :
    Draws place Drawing.frame fun d => framebufferCircle d cx cy radius color filled :=
  .ite _ (fun _ => .skip) fun _ => .select _ fun _ => circleFrom_draws S cx cy color filled _ _

theorem triangle_draws (S : Screen place) (x0 y0 x1 y1 x2 y2 : ℤ) (color : UInt32) :
    Draws place Drawing.frame fun d => framebufferFillTriangle d x0 y0 x1 y1 x2 y2 color := by
  have hpixel (area x y : ℤ) : Draws place Drawing.frame
      (trianglePixel x0 y0 x1 y1 x2 y2 area color x y) := by
    refine .select _ fun _ => .select _ fun _ => .select _ fun _ => ?_
    simp only [apply_ite some]
    exact .ite _ (fun _ => plot_draws S x y color) fun _ => .skip
  have hdraws : Draws place Drawing.frame fun d =>
      (clampLast (greatest x0 x1 x2) (toInt64 place.info.width)).bind fun maxX =>
      (clampLast (greatest y0 y1 y2) (toInt64 place.info.height)).bind fun maxY =>
      (edge x0 y0 x1 y1 x2 y2).bind fun area =>
      forUpTo (if least y0 y1 y2 < 0 then 0 else least y0 y1 y2) maxY (fun y =>
        forUpTo (if least x0 x1 x2 < 0 then 0 else least x0 x1 x2) maxX fun x =>
          trianglePixel x0 y0 x1 y1 x2 y2 area color x y) d :=
    .select _ fun _ => .select _ fun _ => .select _ fun _ =>
      .forUpTo (fun _ => .forUpTo (fun _ => hpixel _ _ _) _ _) _ _
  refine hdraws.congr fun d h => ?_
  unfold framebufferFillTriangle
  rw [h.info]
  rfl

theorem putPixel_draws (S : Screen place) (x y : ℤ) (width : ℕ) (pixels : List UInt8)
    (row column : ℕ) : Draws place id (putPixel x y width pixels row column) := by
  have hdraws : Draws place id fun st =>
      (pixels[mul64 (add64 (mul64 row width) column) 4]?).bind fun red =>
      (pixels[add64 (mul64 (add64 (mul64 row width) column) 4) 1]?).bind fun green =>
      (pixels[add64 (mul64 (add64 (mul64 row width) column) 4) 2]?).bind fun blue =>
      (pixels[add64 (mul64 (add64 (mul64 row width) column) 4) 3]?).bind fun alpha =>
      (checkInt64 (x + column)).bind fun left => (checkInt64 (y + row)).bind fun top =>
      some (framebufferBlendPixel st left top (framebufferRgb place.info red green blue) alpha).2 :=
    .select _ fun _ => .select _ fun _ => .select _ fun _ => .select _ fun _ => .select _ fun _ =>
      .select _ fun _ => blendPixel_draws S _ _ _ _
  refine hdraws.congr fun st h => ?_
  unfold putPixel
  rw [show st.info = place.info from h.info]
  rfl

theorem putRgba_draws (S : Screen place) (x y : ℤ) (width height : UInt32)
    (pixels : Option (List UInt8)) :
    Draws place id fun st => framebufferPutRgba st x y width height pixels := by
  cases pixels with
  | none => exact .skip
  | some pixels =>
    refine .ite _ (fun _ => .skip) fun _ => ?_
    exact .forRangeM (fun row => .forRangeM (putPixel_draws S x y width.toNat pixels row) _ _) _ _

/-- What is drawn of a picture can be drawn within a drawing. -/
theorem Draws.onFrame {op : FramebufferState → Option FramebufferState} (h : Draws place id op) :
    Draws place Drawing.frame fun d => (op d.frame).map fun st => { d with frame := st } := by
  rcases h with hnone | ⟨f, hf⟩
  · exact .inl fun d h => by simp only [hnone d.frame h, Option.map_none]
  · refine .inr ⟨f, fun d h => ?_⟩
    obtain ⟨st, hst, E⟩ := hf d.frame h
    exact ⟨{ d with frame := st }, by simp only [hst, Option.map_some], E⟩

theorem roundedRect_draws {svga : Svga} (S : Screen place) (hsvga : FillsAlike svga)
    (x y width height radius : ℤ) (color : UInt32) : Draws place Drawing.frame fun d =>
      framebufferFillRoundedRect svga d x y width height radius color := by
  have hrect := fun x y width height =>
    Draws.onFrame (fillRect_draws S hsvga x y width height color)
  have hdisc := fun cx cy radius => circle_draws S cx cy radius color true
  have hdiscs (left top right bottom radius : ℤ) : Draws place Drawing.frame fun d =>
      cornerDiscs d left top right bottom radius color :=
    (hdisc _ _ _).bind <| (hdisc _ _ _).bind <| (hdisc _ _ _).bind (hdisc _ _ _)
  refine .ite _ (fun _ => .skip) fun _ => .ite _ (fun _ => hrect x y width height) fun _ => ?_
  exact .select _ fun _ => .select _ fun _ => .select _ fun _ => .select _ fun _ =>
    (hrect _ _ _ _).bind <| .select _ fun _ => (hrect _ _ _ _).bind <| .select _ fun _ =>
      .select _ fun _ => .select _ fun _ => .select _ fun _ => .select _ fun _ => .select _ fun _ =>
        hdiscs _ _ _ _ _

end Shapes

/-- The outline fonts draw a text by blending pixels, the same ones on every picture of a format. -/
def BlendsSamePixels (fonts : Fonts) : Prop :=
  ∃ dots : FramebufferInfo → ℤ → ℤ → List UInt8 → UInt32 → UInt32 → Option (List Dot),
    ∀ st x y text color size, fonts.drawText st x y text color size =
      (dots st.info x y text color size).map fun dots => blendDots dots st

theorem BlendsSamePixels.blendsPixels {fonts : Fonts} (h : BlendsSamePixels fonts) :
    BlendsPixels fonts := by
  obtain ⟨dots, hdots⟩ := h
  intro st x y text color size st' hdrawn
  rw [hdots] at hdrawn
  obtain ⟨drawn, -, rfl⟩ := Option.map_eq_some_iff.mp hdrawn
  exact ⟨drawn, rfl⟩

theorem blendDots_draws (S : Screen place) (dots : List Dot) :
    Draws place id fun st => some (blendDots dots st) := by
  induction dots with
  | nil => exact .skip
  | cons dot dots ih => exact (blendPixel_draws S dot.x dot.y dot.color dot.alpha).bind ih

section Texts

/-- A step of a text; a drawing without a frame stays without one. -/
def TextDraws (place : FramebufferState) (step : TextDrawing → TextDrawing) : Prop :=
  ∃ op, Draws place id op ∧ ∀ d, (step d).frame = d.frame.bind op

namespace TextDraws

variable {step step' : TextDrawing → TextDrawing}

theorem skip : TextDraws place fun d => d :=
  ⟨some, .skip, fun d => (Option.bind_fun_some d.frame).symm⟩

theorem undefined : TextDraws place fun d => ⟨none, d.filled⟩ :=
  ⟨fun _ => none, .undefined, fun d => by rw [Option.bind_fun_none]⟩

theorem comp (h : TextDraws place step) (h' : TextDraws place step') :
    TextDraws place fun d => step' (step d) := by
  obtain ⟨op, hop, hstep⟩ := h
  obtain ⟨op', hop', hstep'⟩ := h'
  exact ⟨_, hop.bind hop', fun d => by rw [hstep', hstep, Option.bind_assoc]⟩

theorem forRange {body : ℕ → TextDrawing → TextDrawing} (h : ∀ i, TextDraws place (body i))
    (lo hi : ℕ) : TextDraws place (CountedLoops.forRange lo hi body) := by
  unfold CountedLoops.forRange
  generalize hi - lo = n
  induction n generalizing lo with
  | zero => exact skip
  | succ n ih => exact (h lo).comp (ih (lo + 1))

end TextDraws

variable {svga : Svga} (S : Screen place) (hsvga : FillsAlike svga)
include S hsvga

theorem characterPixel_draws (x y : ℤ) (character : UInt8) (color scale : UInt32)
    (row column : ℕ) : TextDraws place
      (characterPixel (framebufferFillRect svga) x y character color scale row column) := by
  unfold characterPixel
  by_cases hdot : (glyphRow character row).testBit column
  · simp only [if_pos hdot]
    refine ⟨fun st => (checkInt64 (x + column * scale.toNat)).bind fun left =>
      (checkInt64 (y + row * scale.toNat)).bind fun top =>
        framebufferFillRect svga st left top scale.toNat scale.toNat color,
      .select _ fun _ => .select _ fun _ => fillRect_draws S hsvga _ _ _ _ _, fun d => ?_⟩
    dsimp only
    cases d.frame <;> cases checkInt64 (x + column * scale.toNat) <;>
      cases checkInt64 (y + row * scale.toNat) <;> rfl
  · simp only [if_neg hdot]
    exact .skip

theorem framebufferCharacter_draws (x y : ℤ) (character : UInt8) (color scale : UInt32) :
    TextDraws place (framebufferCharacter (framebufferFillRect svga) x y character color scale) :=
  .forRange (fun row => .forRange (characterPixel_draws S hsvga x y _ color scale row) 0 8) 0 8

theorem textFrom_draws (originX : ℤ) (color scale : UInt32) (text : List UInt8) (x y : ℤ) :
    TextDraws place (textFrom (framebufferFillRect svga) originX color scale text x y) := by
  induction text generalizing x y with
  | nil => exact .skip
  | cons character text ih =>
    change TextDraws place fun d =>
      textFrom (framebufferFillRect svga) originX color scale (character :: text) x y d
    simp only [textFrom]
    by_cases hnewline : (character == 10) = true
    · simp only [if_pos hnewline]
      cases checkInt64 (y + 8 * scale.toNat) with
      | none => exact .undefined
      | some y => exact ih originX y
    · simp only [if_neg hnewline]
      have hcharacter := framebufferCharacter_draws S hsvga x y character color scale
      cases checkInt64 (x + 8 * scale.toNat) with
      | none => exact hcharacter.comp .undefined
      | some x => exact hcharacter.comp (ih x y)

theorem text_draws {fonts : Fonts} (hfonts : BlendsSamePixels fonts) (x y : ℤ)
    (text : Option (List UInt8)) (color scale : UInt32) :
    Draws place id fun st =>
      (framebufferText (framebufferFillRect svga) fonts st x y text color scale).frame := by
  cases text with
  | none => exact .skip
  | some text =>
    obtain ⟨dots, hdots⟩ := hfonts
    have hready (st : FramebufferState) (h : OnPlace place st) : st.initialized = true :=
      (h.screen S).initialized
    unfold framebufferText
    by_cases hskip : scale = 0 ∨ scale > 32
    · refine Draws.skip.congr fun st h => ?_
      dsimp only
      rw [if_pos (.inr hskip)]
    · have hguard (st : FramebufferState) (h : OnPlace place st) :
          ¬((!st.initialized) = true ∨ scale = 0 ∨ scale > 32) := by
        simpa [hready st h] using hskip
      have hdrawn (st : FramebufferState) (h : OnPlace place st) :
          fonts.drawText st x y text color (scale * 8) =
            (dots place.info x y text color (scale * 8)).map fun dots => blendDots dots st := by
        rw [hdots, h.info]
      cases hplan : dots place.info x y text color (scale * 8) with
      | none =>
        obtain ⟨op, hop, hstep⟩ := textFrom_draws S hsvga x color scale text x y
        refine hop.congr fun st h => ?_
        dsimp only
        rw [if_neg (hguard st h), hdrawn st h, hplan]
        exact hstep ⟨some st, []⟩
      | some drawn =>
        refine (blendDots_draws S drawn).congr fun st h => ?_
        dsimp only
        rw [if_neg (hguard st h), hdrawn st h, hplan]
        rfl

end Texts

/-- The calls that draw without the console. -/
def IsDrawing : GraphicsCall → Prop
  | .consoleClear _ | .consoleSetColors _ _ | .consoleSetCursor _ _ | .consoleSetCursorVisible _
  | .consoleWrite _ => False
  | _ => True

section Runs

variable {svga : Svga} {fonts : Fonts}

/-- What a drawing makes of a picture alone. -/
theorem Draws.ofFrame {op : Drawing → Option Drawing} (h : Draws place Drawing.frame op) :
    Draws place id fun st => (op ⟨st, []⟩).map Drawing.frame := by
  rcases h with hnone | ⟨f, hf⟩
  · exact .inl fun st h => by simp only [hnone ⟨st, []⟩ h, Option.map_none]
  · refine .inr ⟨f, fun st h => ?_⟩
    obtain ⟨d, hd, E⟩ := hf ⟨st, []⟩ h
    exact ⟨d.frame, by simp only [hd, Option.map_some], E⟩

theorem perform_draws (S : Screen place) (hsvga : FillsAlike svga) (hfonts : BlendsSamePixels fonts)
    {call : GraphicsCall} (h : IsDrawing call) :
    Draws place id fun st => call.perform svga fonts st := by
  cases call with
  | clear color => exact framebufferClear_draws S hsvga color
  | setPixel x y color => exact setPixel_draws S x y color
  | blendPixel x y color alpha => exact blendPixel_draws S x y color alpha
  | fillRect x y width height color => exact fillRect_draws S hsvga x y width height color
  | strokeRect x y width height color thickness =>
    exact strokeRect_draws S hsvga x y width height color thickness
  | line x0 y0 x1 y1 color => exact (line_draws S x0 y0 x1 y1 color).ofFrame
  | circle centerX centerY radius color filled =>
    exact (circle_draws S centerX centerY radius color filled).ofFrame
  | fillRoundedRect x y width height radius color =>
    exact (roundedRect_draws S hsvga x y width height radius color).ofFrame
  | fillTriangle x0 y0 x1 y1 x2 y2 color => exact (triangle_draws S x0 y0 x1 y1 x2 y2 color).ofFrame
  | putRgba x y width height pixels => exact putRgba_draws S x y width height pixels
  | drawText x y text color scale => exact text_draws S hsvga hfonts x y text color scale
  | consoleClear background => exact h.elim
  | consoleSetColors foreground background => exact h.elim
  | consoleSetCursor column row => exact h.elim
  | consoleSetCursorVisible visible => exact h.elim
  | consoleWrite text => exact h.elim

/-- The calls lead from one picture to another. -/
def Performs (svga : Svga) (fonts : Fonts) :
    FramebufferState → List GraphicsCall → FramebufferState → Prop :=
  Run fun st call st' => GraphicsCall.perform svga fonts st call = some st'

theorem performs_iff {calls : List GraphicsCall} :
    Performs svga fonts st calls st' ↔
      calls.foldlM (GraphicsCall.perform svga fonts) st = some st' := by
  constructor
  · intro h
    induction h with
    | nil st => rfl
    | cons head _ ih => rw [List.foldlM_cons, head]; exact ih
  · intro h
    induction calls generalizing st with
    | nil => exact Option.some.inj h ▸ .nil st
    | cons call calls ih =>
      rw [List.foldlM_cons] at h
      obtain ⟨t, ht, htail⟩ := Option.bind_eq_some_iff.mp h
      exact .cons ht (ih htail)

theorem calls_draws (S : Screen place) (hsvga : FillsAlike svga)
    (hfonts : BlendsSamePixels fonts) {calls : List GraphicsCall}
    (h : ∀ call ∈ calls, IsDrawing call) :
    Draws place id fun st => calls.foldlM (GraphicsCall.perform svga fonts) st := by
  induction calls with
  | nil => exact .skip
  | cons call calls ih =>
    simp only [List.foldlM_cons]
    exact (perform_draws S hsvga hfonts (h call List.mem_cons_self)).bind
      (ih fun call' hcall => h call' (List.mem_cons_of_mem _ hcall))

/-- Calls that can be performed on one picture can be performed on all, and edit all in one way. -/
theorem Performs.edits (S : Screen place) (hsvga : FillsAlike svga)
    (hfonts : BlendsSamePixels fonts) {calls : List GraphicsCall}
    (hdrawing : ∀ call ∈ calls, IsDrawing call) (h : OnPlace place st)
    (hrun : Performs svga fonts st calls st') :
    ∃ f, Edits f st st' ∧
      ∀ u, OnPlace place u → ∃ u', Performs svga fonts u calls u' ∧ Edits f u u' := by
  rw [performs_iff] at hrun
  rcases calls_draws S hsvga hfonts hdrawing with hnone | ⟨f, hf⟩
  · simp only [hnone st h, reduceCtorEq] at hrun
  · have hall (u : FramebufferState) (hu : OnPlace place u) :
        ∃ u', Performs svga fonts u calls u' ∧ Edits f u u' := by
      obtain ⟨u', hu', E⟩ := hf u hu
      exact ⟨u', performs_iff.mpr hu', E⟩
    obtain ⟨t, ht, E⟩ := hall st h
    obtain rfl : t = st' := Option.some.inj ((performs_iff.mp ht).symm.trans hrun)
    exact ⟨f, E, hall⟩

/-- A list of drawing calls is undefined on every picture, or there is one function of a pixel and
its old colour that says what the calls make of any picture. -/
theorem run_edits (S : Screen place) (hsvga : FillsAlike svga)
    (hfonts : BlendsSamePixels fonts) {calls : List GraphicsCall}
    (hdrawing : ∀ call ∈ calls, IsDrawing call) :
    (∀ st st', OnPlace place st → ¬Performs svga fonts st calls st') ∨
    ∃ f, ∀ st, OnPlace place st → ∃ st', Performs svga fonts st calls st' ∧ Edits f st st' := by
  by_cases hsome : ∃ st st', OnPlace place st ∧ Performs svga fonts st calls st'
  · obtain ⟨st, st', h, hrun⟩ := hsome
    obtain ⟨f, -, hf⟩ := hrun.edits S hsvga hfonts hdrawing h
    exact .inr ⟨f, hf⟩
  · exact .inl fun st st' h hrun => hsome ⟨st, st', h, hrun⟩

theorem stopFonts_blendsSamePixels : BlendsSamePixels stopFonts := by
  refine ⟨fun _ x y text color size => if text = [chr '.'] ∧ size = 8 then
    some [⟨x + 1, y + 7, color, 160⟩] else none, fun st x y text color size => ?_⟩
  unfold stopFonts
  dsimp only
  split_ifs <;> rfl

theorem stop_edits {x y : ℤ} {color : UInt32} (S : Screen st)
    (h : GraphicsCall.perform svga stopFonts st (.drawText x y (some [chr '.']) color 1) = some st') :
    Edits (fun px py c => if (px : ℤ) = x + 1 ∧ (py : ℤ) = y + 7 then blended st.info color 160 c
      else c) st st' := by
  unfold GraphicsCall.perform framebufferText at h
  dsimp only at h
  rw [if_neg (by simp [S.initialized])] at h
  exact Option.some.inj h ▸ blendPixel_edits S (x + 1) (y + 7) color 160

/-- The full stop is blended into the rectangle. -/
theorem run_edits_smallScreen : ∃ f : ℕ → ℕ → UInt32 → UInt32,
    (∀ c, f 5 5 c = 6 ∧ f 6 5 c = 5 ∧ f 2 5 c = c) ∧ ∀ st, OnPlace smallScreen st → ∃ st',
      Performs Svga.absent stopFonts st
        [.fillRect 3 4 100 2 5, .drawText 4 (-2) (some [chr '.']) 7 1] st' ∧ Edits f st st' := by
  have hdrawing : ∀ call ∈ ([.fillRect 3 4 100 2 5, .drawText 4 (-2) (some [chr '.']) 7 1] :
      List GraphicsCall), IsDrawing call := by
    intro call h
    rcases List.mem_pair.mp h with rfl | rfl <;> exact trivial
  have hrun : ∃ st', Performs Svga.absent stopFonts smallScreen
      [.fillRect 3 4 100 2 5, .drawText 4 (-2) (some [chr '.']) 7 1] st' :=
    ⟨_, .cons rfl (.cons rfl (.nil _))⟩
  refine ⟨fun px py c => if px = 5 ∧ py = 5 then 6 else if 3 ≤ px ∧ 4 ≤ py ∧ py < 6 then 5 else c,
    fun c => ⟨rfl, rfl, rfl⟩, fun st hplace => ?_⟩
  obtain ⟨_, hsome⟩ := hrun
  rcases run_edits smallScreen_screen fillsAlike_absent stopFonts_blendsSamePixels hdrawing with
    hnone | ⟨f, hf⟩
  · exact absurd hsome (hnone _ _ (.refl _))
  obtain ⟨st', hst', -⟩ := hf st hplace
  refine ⟨st', hst', ?_⟩
  cases hst' with
  | cons hfill htail =>
    have S := hplace.screen smallScreen_screen
    have E := edits_of_paints (S.fillRect_paints_of_some fillsAlike_absent hfill).2
    have hu := hplace.edits E
    cases htail with
    | cons hstop hend =>
      cases hend
      have E' := stop_edits (hu.screen smallScreen_screen) hstop
      rw [hu.info] at E'
      refine (E.trans E').congr fun px py hpx _ c => ?_
      have hinside : InRect 3 4 100 2 px py ↔ 3 ≤ px ∧ 4 ≤ py ∧ py < 6 := by
        rw [hplace.info] at hpx
        change px < 16 at hpx
        unfold InRect
        omega
      have hdot : ((px : ℤ) = 4 + 1 ∧ (py : ℤ) = -2 + 7) ↔ px = 5 ∧ py = 5 := by omega
      simp only [hinside, hdot]
      split_ifs
      · decide
      · omega
      · rfl
      · rfl

/-- Whatever the picture, the calls change pixels of the region only. -/
def StaysIn (svga : Svga) (fonts : Fonts) (place : FramebufferState) (region : ℕ → ℕ → Prop)
    (calls : List GraphicsCall) : Prop :=
  ∀ st st', OnPlace place st → Performs svga fonts st calls st' →
    ∀ x y, x < place.info.width → y < place.info.height → ¬region x y →
      pixel st' x y = pixel st x y

theorem staysIn_of_paints {call : GraphicsCall} {area : ℕ → ℕ → Prop} {color : UInt32}
    (h : ∀ st st', OnPlace place st → call.perform svga fonts st = some st' →
      Paints area color st st') :
    StaysIn svga fonts place area [call] := by
  intro st st' hplace hrun x y hx hy hout
  cases hrun with
  | cons head tail =>
    cases tail
    exact (h st st' hplace head).outside x y (hplace.info ▸ hx) (hplace.info ▸ hy) hout

theorem fillRect_staysIn (S : Screen place) (hsvga : FillsAlike svga) (x y width height : ℤ)
    (color : UInt32) :
    StaysIn svga fonts place (InRect x y width height) [.fillRect x y width height color] :=
  staysIn_of_paints fun _ _ hplace h => ((hplace.screen S).fillRect_paints_of_some hsvga h).2

/-- Pictures with the same pixels and the same bytes elsewhere. -/
theorem eq_of_pixels {t u : FramebufferState} (S : Screen st) (ht : SameFrame st t)
    (hu : SameFrame st u)
    (hpixels : ∀ x y, x < st.info.width → y < st.info.height → pixel u x y = pixel t x y)
    (helse : ∀ a, ¬PixelByte st a → u.memory a = t.memory a) : u = t := by
  have hmemory : u.memory = t.memory := by
    funext a
    by_cases ha : PixelByte st a
    · obtain ⟨x, hx, y, hy, i, hi, rfl⟩ := ha
      obtain ⟨haddress, hrow, hrows⟩ := S.pixelAddress_eq hx hy
      have hfits := S.fits
      have hword := pixel_eq_iff.mp (hpixels x y hx hy)
      rw [ht, hu] at hword
      change loadWord u.memory (pixelAddress st x y) = loadWord t.memory (pixelAddress st x y) at hword
      have hbyte := load_inj hword hi
      rwa [Nat.zero_add, haddress, add64_eq (by omega)] at hbyte
    · exact helse a ha
  rw [ht, hu, hmemory]

/-- Lists of drawing calls that stay in regions that do not meet can change places: in the end the
whole state is the same. -/
theorem disjoint_runs_commute (S : Screen place) (hsvga : SoftwareAlike svga)
    (hfonts : BlendsSamePixels fonts) {calls calls' : List GraphicsCall}
    (hdrawing : ∀ call ∈ calls ++ calls', IsDrawing call)
    {region region' : ℕ → ℕ → Prop} (hregion : StaysIn svga fonts place region calls)
    (hregion' : StaysIn svga fonts place region' calls') (hapart : ∀ x y, ¬(region x y ∧ region' x y))
    (hrun : Performs svga fonts place (calls ++ calls') st') :
    Performs svga fonts place (calls' ++ calls) st' := by
  have hplace := OnPlace.refl place
  obtain ⟨s₀, hs₀, hs₁⟩ :
      ∃ s, Performs svga fonts place calls s ∧ Performs svga fonts s calls' st' := by
    rw [performs_iff, List.foldlM_append] at hrun
    obtain ⟨s, hs, hs'⟩ := Option.bind_eq_some_iff.mp hrun
    exact ⟨s, performs_iff.mpr hs, performs_iff.mpr hs'⟩
  obtain ⟨f, Es, hf⟩ := hs₀.edits S hsvga.fills hfonts
    (fun call h => hdrawing call (List.mem_append_left _ h)) hplace
  obtain ⟨g, Es', hg⟩ := hs₁.edits S hsvga.fills hfonts
    (fun call h => hdrawing call (List.mem_append_right _ h)) (hplace.edits Es)
  obtain ⟨t, ht, Et⟩ := hg place hplace
  obtain ⟨t', ht', Et'⟩ := hf t (hplace.edits Et)
  have hinfo : s₀.info = place.info := Es.frame.info_eq
  have hinfo' : t.info = place.info := Et.frame.info_eq
  have hpixels : ∀ x y, x < place.info.width → y < place.info.height →
      pixel t' x y = pixel st' x y := by
    intro x y hx hy
    by_cases hin : region x y
    · have hout : ¬region' x y := fun h => hapart x y ⟨hin, h⟩
      rw [hregion' s₀ st' (hplace.edits Es) hs₁ x y hx hy hout, Es.pixel_eq x y hx hy,
        Et'.pixel_eq x y (hinfo' ▸ hx) (hinfo' ▸ hy), hregion' place t hplace ht x y hx hy hout]
    · rw [hregion t t' (hplace.edits Et) ht' x y hx hy hin, Et.pixel_eq x y hx hy,
        Es'.pixel_eq x y (hinfo ▸ hx) (hinfo ▸ hy), hregion place s₀ hplace hs₀ x y hx hy hin]
  have hconfined {u v : FramebufferState} {calls : List GraphicsCall}
      (h : Performs svga fonts u calls v) : Confined u v := h.invariant (Confined u)
    (fun _ _ _ h hstep => h.trans (perform_confined hsvga hfonts.blendsPixels hstep)) (.refl u)
  have hs_same := ((hconfined hs₀).trans (hconfined hs₁)) S
  have ht_same := ((hconfined ht).trans (hconfined ht')) S
  have heq : t' = st' := eq_of_pixels S (Es.frame.trans Es'.frame) (Et.frame.trans Et'.frame) hpixels
    fun a ha => (ht_same.memory a ha).trans (hs_same.memory a ha).symm
  rw [performs_iff, List.foldlM_append, performs_iff.mp ht]
  exact heq ▸ performs_iff.mp ht'

theorem stop_staysIn (S : Screen place) (x y : ℤ) (color : UInt32) :
    StaysIn svga stopFonts place (fun px py => (px : ℤ) = x + 1 ∧ (py : ℤ) = y + 7)
      [.drawText x y (some [chr '.']) color 1] := by
  intro st st' hplace hrun px py hpx hpy hout
  cases hrun with
  | cons head tail =>
    cases tail
    have E := stop_edits (hplace.screen S) head
    rw [E.pixel_eq px py (hplace.info ▸ hpx) (hplace.info ▸ hpy), if_neg hout]

/-- A rectangle and a full stop. -/
theorem disjoint_runs_commute_smallScreen : ∃ st',
    Performs Svga.absent stopFonts smallScreen
      ([.fillRect 0 0 4 4 5] ++ [.drawText 5 (-2) (some [chr '.']) 7 1]) st' ∧
    Performs Svga.absent stopFonts smallScreen
      ([.drawText 5 (-2) (some [chr '.']) 7 1] ++ [.fillRect 0 0 4 4 5]) st' := by
  have hrun : ∃ st', Performs Svga.absent stopFonts smallScreen
      ([.fillRect 0 0 4 4 5] ++ [.drawText 5 (-2) (some [chr '.']) 7 1]) st' :=
    ⟨_, .cons rfl (.cons rfl (.nil _))⟩
  refine hrun.imp fun st' h => ⟨h, disjoint_runs_commute smallScreen_screen softwareAlike_absent
    stopFonts_blendsSamePixels (fun call hcall => ?_)
    (fillRect_staysIn smallScreen_screen fillsAlike_absent 0 0 4 4 5)
    (stop_staysIn smallScreen_screen 5 (-2) 7) (fun px py hmeet => ?_) h⟩
  · rcases List.mem_pair.mp hcall with rfl | rfl <;> exact trivial
  · unfold InRect at hmeet
    omega

end Runs

end JsOs.DisplayLists

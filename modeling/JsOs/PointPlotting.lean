import JsOs.PixelStores

/-!
# Plotting points

What a sequence of calls of `framebuffer_set_pixel` in one colour paints.
-/

namespace JsOs.PointPlotting

open MachineWords FramebufferModel FramebufferPainting DrawingModel PixelStores

variable {d : Drawing} {color : UInt32} {ps qs : List (ℤ × ℤ)}

def plotAll (d : Drawing) (ps : List (ℤ × ℤ)) (color : UInt32) : Drawing :=
  ps.foldl (fun d p => plot d p.1 p.2 color) d

@[simp] theorem plotAll_nil : plotAll d [] color = d := rfl

theorem plotAll_cons (p : ℤ × ℤ) :
    plotAll d (p :: ps) color = plotAll (plot d p.1 p.2 color) ps color := rfl

theorem plotAll_append :
    plotAll d (ps ++ qs) color = plotAll (plotAll d ps color) qs color := List.foldl_append

/-- The record determines the points: no two lists of points leave the same drawing. -/
theorem plotAll_plotted : (plotAll d ps color).plotted = d.plotted ++ ps := by
  induction ps generalizing d with
  | nil => exact (List.append_nil _).symm
  | cons p ps ih =>
    rw [plotAll_cons, ih]
    exact List.append_assoc ..

theorem Screen.setPixel_paints {st : FramebufferState} (S : Screen st) (x y : ℤ) (color : UInt32) :
    Paints (fun px py => (px : ℤ) = x ∧ (py : ℤ) = y) color st
      (framebufferSetPixel st x y color).2 := by
  by_cases hon : OnScreen st.info x y
  · rw [framebufferSetPixel_on S.initialized hon]
    obtain ⟨hx, hxw, hy, hyh⟩ := hon
    refine (S.storePixel_paints x.toNat y.toNat color (by omega) (by omega)).congr
      fun px py _ _ => ?_
    omega
  · rw [framebufferSetPixel_off S.initialized hon]
    refine (Paints.none st color).congr fun px py hpx hpy => iff_of_false ?_ id
    rintro ⟨rfl, rfl⟩
    exact hon (onScreen_natCast.mpr ⟨hpx, hpy⟩)

theorem plotAll_paints (S : Screen d.frame) :
    Paints (fun px py => ((px : ℤ), (py : ℤ)) ∈ ps) color d.frame (plotAll d ps color).frame := by
  induction ps generalizing d with
  | nil => exact (Paints.none d.frame color).congr fun px py _ _ => by simp
  | cons p ps ih =>
    have hfirst := Screen.setPixel_paints S p.1 p.2 color
    have hrest := ih (d := plot d p.1 p.2 color) (S.congr hfirst.frame)
    refine (hfirst.union hrest).congr fun px py _ _ => ?_
    rw [List.mem_cons, Prod.ext_iff]

/-- Points that lie in the same places paint the same. -/
theorem plotAll_paints_of_mem (S : Screen d.frame) {area : ℕ → ℕ → Prop}
    (h : ∀ px py : ℕ, ((px : ℤ), (py : ℤ)) ∈ ps ↔ area px py) (color : UInt32) :
    Paints area color d.frame (plotAll d ps color).frame :=
  (plotAll_paints S).congr fun px py _ _ => (h px py).symm

end JsOs.PointPlotting

import JsOs.PlaneTriangles
import JsOs.PointPlotting
import Mathlib.Data.Real.Basic

/-!
# `framebuffer_fill_triangle`

The test of the pixels in the clipped bounding box is the one of `PlaneTriangles`, so the pixels
that are painted are those of the closed convex hull, whatever the order of the corners.
-/

namespace JsOs.TriangleFilling

open CountedLoops MachineWords FramebufferModel FramebufferPainting DrawingModel PointPlotting
open PlaneTriangles

section Edges

/-- A product of 32-bit numbers. -/
theorem abs_mul_lt {u v : ℤ} (hu : |u| < 2 ^ 31) (hv : |v| < 2 ^ 31) : |u * v| < 2 ^ 62 := by
  rw [abs_mul]
  calc |u| * |v| < 2 ^ 31 * 2 ^ 31 := mul_lt_mul'' hu hv (abs_nonneg u) (abs_nonneg v)
    _ = 2 ^ 62 := by norm_num

theorem edge_eq {ax ay bx byy px py : ℤ} (hax : |ax| < 2 ^ 30) (hay : |ay| < 2 ^ 30)
    (hbx : |bx| < 2 ^ 30) (hby : |byy| < 2 ^ 30) (hpx : |px| < 2 ^ 30) (hpy : |py| < 2 ^ 30) :
    edge ax ay bx byy px py = some ((px - ax) * (byy - ay) - (py - ay) * (bx - ax)) := by
  have hdiff {u v : ℤ} (hu : |u| < 2 ^ 30) (hv : |v| < 2 ^ 30) : |u - v| < 2 ^ 31 := by
    rw [abs_lt] at *
    omega
  have hfits {v : ℤ} (hv : |v| < 2 ^ 62) : checkInt64 v = some v := by
    rw [abs_lt] at hv
    exact checkInt64_of_lt (by omega) (by omega)
  have hleft := abs_mul_lt (hdiff hpx hax) (hdiff hby hay)
  have hright := abs_mul_lt (hdiff hpy hay) (hdiff hbx hax)
  have hdiff' {u v : ℤ} (hu : |u| < 2 ^ 30) (hv : |v| < 2 ^ 30) : checkInt64 (u - v) = some (u - v) :=
    hfits ((hdiff hu hv).trans (by norm_num))
  unfold edge
  simp only [hdiff' hpx hax, hdiff' hby hay, hdiff' hpy hay, hdiff' hbx hax, Option.bind_eq_bind,
    Option.bind_some, hfits hleft, hfits hright]
  rw [abs_lt] at hleft hright
  exact checkInt64_of_lt (by omega) (by omega)

end Edges

/-- A pixel or a corner as a point of the plane. -/
def toPlane (p : ℤ × ℤ) : ℝ × ℝ := (p.1, p.2)

/-- The pixels of the closed convex hull of the corners. -/
def InHull (v : Fin 3 → ℤ × ℤ) (p : ℤ × ℤ) : Prop :=
  toPlane p ∈ convexHull ℝ (Set.range fun i => toPlane (v i))

section Hulls

variable {v : Fin 3 → ℤ × ℤ} {p : ℤ × ℤ}

theorem range_triple {α : Type*} (f : Fin 3 → α) : Set.range f = {f 0, f 1, f 2} := by
  ext a
  simp only [Set.mem_range, Fin.exists_fin_succ, Set.mem_insert_iff, Set.mem_singleton_iff]
  simp [eq_comm]

/-- The function `edge` in unbounded integers. -/
def edgeValue (a b p : ℤ × ℤ) : ℤ := (p.1 - a.1) * (b.2 - a.2) - (p.2 - a.2) * (b.1 - a.1)

theorem cross_toPlane (a b p : ℤ × ℤ) :
    cross (toPlane a) (toPlane b) (toPlane p) = (edgeValue a b p : ℤ) := by
  unfold cross toPlane edgeValue
  push_cast
  rfl

theorem least_eq (a b c : ℤ) : least a b c = min a (min b c) := by
  unfold least
  split_ifs <;> omega

theorem greatest_eq (a b c : ℤ) : greatest a b c = max a (max b c) := by
  unfold greatest
  split_ifs <;> omega

/-- The test of the loop, and the bounding box. -/
theorem inHull_iff : InHull v p ↔
    ((least (v 0).1 (v 1).1 (v 2).1 ≤ p.1 ∧ p.1 ≤ greatest (v 0).1 (v 1).1 (v 2).1) ∧
      least (v 0).2 (v 1).2 (v 2).2 ≤ p.2 ∧ p.2 ≤ greatest (v 0).2 (v 1).2 (v 2).2) ∧
    (edgeValue (v 0) (v 1) (v 2) ≥ 0 ∧ edgeValue (v 0) (v 1) p ≥ 0 ∧ edgeValue (v 1) (v 2) p ≥ 0 ∧
        edgeValue (v 2) (v 0) p ≥ 0 ∨
      edgeValue (v 0) (v 1) (v 2) < 0 ∧ edgeValue (v 0) (v 1) p ≤ 0 ∧
        edgeValue (v 1) (v 2) p ≤ 0 ∧ edgeValue (v 2) (v 0) p ≤ 0) := by
  unfold InHull
  rw [range_triple, mem_hull_iff]
  unfold OnInnerSide InBox
  rw [cross_toPlane, cross_toPlane, cross_toPlane, cross_toPlane, least_eq, least_eq, greatest_eq,
    greatest_eq]
  unfold toPlane
  dsimp only
  norm_cast

/-- The order of the corners does not matter. -/
theorem inHull_perm (σ : Equiv.Perm (Fin 3)) : InHull (v ∘ σ) p ↔ InHull v p := by
  unfold InHull
  rw [← EquivLike.range_comp (fun i => toPlane (v i)) σ]
  rfl

theorem least_perm (f : Fin 3 → ℤ) (σ : Equiv.Perm (Fin 3)) :
    least (f (σ 0)) (f (σ 1)) (f (σ 2)) = least (f 0) (f 1) (f 2) := by
  have hleast (g : Fin 3 → ℤ) : IsLeast (Set.range g) (least (g 0) (g 1) (g 2)) := by
    rw [range_triple, least_eq]
    exact isLeast_pair.insert _
  have h := hleast (f ∘ σ)
  rw [EquivLike.range_comp] at h
  exact h.unique (hleast f)

theorem greatest_perm (f : Fin 3 → ℤ) (σ : Equiv.Perm (Fin 3)) :
    greatest (f (σ 0)) (f (σ 1)) (f (σ 2)) = greatest (f 0) (f 1) (f 2) := by
  have hgreatest (g : Fin 3 → ℤ) : IsGreatest (Set.range g) (greatest (g 0) (g 1) (g 2)) := by
    rw [range_triple, greatest_eq]
    exact isGreatest_pair.insert _
  have h := hgreatest (f ∘ σ)
  rw [EquivLike.range_comp] at h
  exact h.unique (hgreatest f)

end Hulls

section Loops

variable {v : Fin 3 → ℤ × ℤ} {d : Drawing} {color : UInt32}

open Classical in
/-- One pixel of the bounding box. -/
theorem trianglePixel_eq (hv : ∀ i, |(v i).1| < 2 ^ 30 ∧ |(v i).2| < 2 ^ 30) {x y : ℤ}
    (hx : |x| < 2 ^ 30) (hy : |y| < 2 ^ 30)
    (hbox : (least (v 0).1 (v 1).1 (v 2).1 ≤ x ∧ x ≤ greatest (v 0).1 (v 1).1 (v 2).1) ∧
      least (v 0).2 (v 1).2 (v 2).2 ≤ y ∧ y ≤ greatest (v 0).2 (v 1).2 (v 2).2) :
    trianglePixel (v 0).1 (v 0).2 (v 1).1 (v 1).2 (v 2).1 (v 2).2
        (edgeValue (v 0) (v 1) (v 2)) color x y =
      fun d => some (if InHull v (x, y) then plot d x y color else d) := by
  funext d
  have hedge (i j : Fin 3) : edge (v i).1 (v i).2 (v j).1 (v j).2 x y =
      some (edgeValue (v i) (v j) (x, y)) :=
    edge_eq (hv i).1 (hv i).2 (hv j).1 (hv j).2 hx hy
  have hhull := inHull_iff (v := v) (p := (x, y))
  rw [and_iff_right hbox] at hhull
  unfold trianglePixel
  simp only [hedge, Option.bind_eq_bind, Option.bind_some]
  congr 1
  exact if_congr hhull.symm rfl rfl

open Classical in
/-- The loops, in terms of the hull. -/
theorem fillTriangle_eq (hW : d.frame.info.width < 2 ^ 30) (hH : d.frame.info.height < 2 ^ 30)
    (hv : ∀ i, |(v i).1| < 2 ^ 30 ∧ |(v i).2| < 2 ^ 30) (color : UInt32) :
    framebufferFillTriangle d (v 0).1 (v 0).2 (v 1).1 (v 1).2 (v 2).1 (v 2).2 color =
      forUpTo (max 0 (least (v 0).2 (v 1).2 (v 2).2))
        (min (greatest (v 0).2 (v 1).2 (v 2).2) (d.frame.info.height - 1))
        (fun y => forUpTo (max 0 (least (v 0).1 (v 1).1 (v 2).1))
          (min (greatest (v 0).1 (v 1).1 (v 2).1) (d.frame.info.width - 1))
          fun x d => some (if InHull v (x, y) then plot d x y color else d)) d := by
  have harea : edge (v 0).1 (v 0).2 (v 1).1 (v 1).2 (v 2).1 (v 2).2 =
      some (edgeValue (v 0) (v 1) (v 2)) :=
    edge_eq (hv 0).1 (hv 0).2 (hv 1).1 (hv 1).2 (hv 2).1 (hv 2).2
  have hmin (a : ℤ) : (if a < 0 then 0 else a) = max 0 a := by
    split_ifs <;> omega
  have hmax (a : ℤ) {n : ℕ} (hn : n < 2 ^ 30) :
      clampLast a (toInt64 n) = some (min a (n - 1)) := by
    unfold clampLast
    rw [toInt64_eq (by omega), checkInt64_of_lt (by omega) (by omega)]
    split_ifs <;> congr 1 <;> omega
  unfold framebufferFillTriangle
  simp only [hmin, hmax _ hW, hmax _ hH, harea, Option.bind_eq_bind, Option.bind_some]
  refine congrFun (forUpTo_congr fun y hy hy' => forUpTo_congr fun x hx hx' => ?_) d
  exact trianglePixel_eq hv (by rw [abs_lt]; omega) (by rw [abs_lt]; omega) (by omega)

open Classical in
/-- What a pass over a row paints. -/
theorem hullRow_paints (S : Screen d.frame) (A : ℤ × ℤ → Prop) (loX hiX y : ℤ) (color : UInt32) :
    ∃ d', forUpTo loX hiX (fun x d => some (if A (x, y) then plot d x y color else d)) d =
        some d' ∧
      Paints (fun px py => (loX ≤ px ∧ px ≤ hiX) ∧ (py : ℤ) = y ∧ A (px, py)) color
        d.frame d'.frame := by
  have hstep (x : ℤ) (t : Drawing) (hlo : loX ≤ x) (hhi : x ≤ hiX)
      (P : Paints (fun px py => (loX ≤ px ∧ px < x) ∧ (py : ℤ) = y ∧ A (px, py)) color
        d.frame t.frame) :
      ∃ u, some (if A (x, y) then plot t x y color else t) = some u ∧
        Paints (fun px py => (loX ≤ px ∧ px < x + 1) ∧ (py : ℤ) = y ∧ A (px, py)) color
          d.frame u.frame := by
    refine ⟨_, rfl, ?_⟩
    by_cases hA : A (x, y)
    · rw [if_pos hA]
      refine (P.union (Screen.setPixel_paints (S.congr P.frame) x y color)).congr fun px py _ _ => ?_
      constructor
      · rintro ⟨hx, hy, hA'⟩
        by_cases hlast : (px : ℤ) = x
        · exact Or.inr ⟨hlast, hy⟩
        · exact Or.inl ⟨by omega, hy, hA'⟩
      · rintro (⟨hx, hy, hA'⟩ | ⟨rfl, rfl⟩)
        · exact ⟨by omega, hy, hA'⟩
        · exact ⟨by omega, rfl, hA⟩
    · rw [if_neg hA]
      refine P.congr fun px py _ _ => ?_
      constructor
      · rintro ⟨hx, hy, hA'⟩
        refine ⟨⟨hx.1, lt_of_le_of_ne (by omega) ?_⟩, hy, hA'⟩
        rintro rfl
        exact hA (hy ▸ hA')
      · rintro ⟨hx, hy, hA'⟩
        exact ⟨by omega, hy, hA'⟩
  have hstart : Paints (fun px py => (loX ≤ px ∧ (px : ℤ) < loX) ∧ (py : ℤ) = y ∧ A (px, py)) color
      d.frame d.frame :=
    (Paints.none d.frame color).congr fun px py _ _ => iff_of_false (fun h => by omega) id
  obtain ⟨d', hloop, P⟩ := forUpTo_invariant (fun x (t : Drawing) => Paints
    (fun px py => (loX ≤ px ∧ px < x) ∧ (py : ℤ) = y ∧ A (px, py)) color d.frame t.frame) hstart hstep
  refine ⟨d', hloop, P.congr fun px py _ _ => ?_⟩
  rw [show ((loX ≤ px ∧ (px : ℤ) < max loX (hiX + 1)) ↔ (loX ≤ px ∧ px ≤ hiX)) by omega]

open Classical in
/-- What a pass over a rectangle of pixels paints. -/
theorem hullRows_paint (S : Screen d.frame) (A : ℤ × ℤ → Prop) (loX hiX loY hiY : ℤ)
    (color : UInt32) :
    ∃ d', forUpTo loY hiY (fun y => forUpTo loX hiX fun x d =>
        some (if A (x, y) then plot d x y color else d)) d = some d' ∧
      Paints (fun px py => (loX ≤ px ∧ px ≤ hiX) ∧ (loY ≤ py ∧ py ≤ hiY) ∧ A (px, py)) color
        d.frame d'.frame := by
  have hstep (y : ℤ) (t : Drawing) (hlo : loY ≤ y) (hhi : y ≤ hiY)
      (P : Paints (fun px py => (loX ≤ px ∧ px ≤ hiX) ∧ (loY ≤ py ∧ py < y) ∧ A (px, py)) color
        d.frame t.frame) :
      ∃ u, forUpTo loX hiX (fun x d => some (if A (x, y) then plot d x y color else d)) t =
          some u ∧
        Paints (fun px py => (loX ≤ px ∧ px ≤ hiX) ∧ (loY ≤ py ∧ py < y + 1) ∧ A (px, py)) color
          d.frame u.frame := by
    obtain ⟨u, hrow, Q⟩ := hullRow_paints (S.congr P.frame) A loX hiX y color
    refine ⟨u, hrow, (P.union Q).congr fun px py _ _ => ?_⟩
    constructor
    · rintro ⟨hx, hy, hA⟩
      by_cases hlast : (py : ℤ) = y
      · exact Or.inr ⟨hx, hlast, hA⟩
      · exact Or.inl ⟨hx, by omega, hA⟩
    · rintro (⟨hx, hy, hA⟩ | ⟨hx, hy, hA⟩)
      · exact ⟨hx, by omega, hA⟩
      · exact ⟨hx, by omega, hA⟩
  have hstart : Paints (fun px py => (loX ≤ px ∧ px ≤ hiX) ∧ (loY ≤ py ∧ (py : ℤ) < loY) ∧
      A (px, py)) color d.frame d.frame :=
    (Paints.none d.frame color).congr fun px py _ _ => iff_of_false (fun h => by omega) id
  obtain ⟨d', hloop, P⟩ := forUpTo_invariant (fun y (t : Drawing) => Paints
    (fun px py => (loX ≤ px ∧ px ≤ hiX) ∧ (loY ≤ py ∧ py < y) ∧ A (px, py)) color d.frame t.frame)
    hstart hstep
  refine ⟨d', hloop, P.congr fun px py _ _ => ?_⟩
  rw [show ((loY ≤ py ∧ (py : ℤ) < max loY (hiY + 1)) ↔ (loY ≤ py ∧ py ≤ hiY)) by omega]

/-- `framebuffer_fill_triangle` paints the pixels of the closed convex hull of the corners, and
nothing else; the order of the corners makes no difference at all. -/
theorem fillTriangle_paints_hull (S : Screen d.frame) (hW : d.frame.info.width < 2 ^ 30)
    (hH : d.frame.info.height < 2 ^ 30) (hv : ∀ i, |(v i).1| < 2 ^ 30 ∧ |(v i).2| < 2 ^ 30)
    (color : UInt32) :
    ∃ d', (∀ σ : Equiv.Perm (Fin 3), framebufferFillTriangle d (v (σ 0)).1 (v (σ 0)).2 (v (σ 1)).1
        (v (σ 1)).2 (v (σ 2)).1 (v (σ 2)).2 color = some d') ∧
      Paints (fun px py => InHull v (px, py)) color d.frame d'.frame := by
  classical
  obtain ⟨d', hloops, P⟩ := hullRows_paint S (InHull v)
    (max 0 (least (v 0).1 (v 1).1 (v 2).1))
    (min (greatest (v 0).1 (v 1).1 (v 2).1) (d.frame.info.width - 1))
    (max 0 (least (v 0).2 (v 1).2 (v 2).2))
    (min (greatest (v 0).2 (v 1).2 (v 2).2) (d.frame.info.height - 1)) color
  refine ⟨d', fun σ => ?_, P.congr fun px py hpx hpy => ?_⟩
  · have heq := fillTriangle_eq (v := v ∘ σ) hW hH (fun i => hv (σ i)) color
    simp only [Function.comp_apply, least_perm (fun i => (v i).1), least_perm (fun i => (v i).2),
      greatest_perm (fun i => (v i).1), greatest_perm (fun i => (v i).2), inHull_perm] at heq
    rw [heq, ← hloops]
  · constructor
    · intro h
      have hbox := (inHull_iff.mp h).1
      exact ⟨by omega, by omega, h⟩
    · exact fun h => h.2.2

theorem fillTriangle_paints_hull_small : ∃ d',
    framebufferFillTriangle ⟨smallScreen, []⟩ 2 2 8 2 2 8 7 = some d' ∧
      pixel d'.frame 5 5 = 7 ∧ pixel d'.frame 6 5 = pixel smallScreen 6 5 := by
  obtain ⟨d', hfill, P⟩ := fillTriangle_paints_hull (d := ⟨smallScreen, []⟩)
    (v := ![(2, 2), (8, 2), (2, 8)]) smallScreen_screen (by decide) (by decide) (by decide) 7
  refine ⟨d', hfill 1, P.inside 5 5 (by decide) (by decide) (inHull_iff.mpr (by decide)),
    P.outside 6 5 (by decide) (by decide) fun h => ?_⟩
  have hside := inHull_iff.mp h
  revert hside
  decide

end Loops

end JsOs.TriangleFilling

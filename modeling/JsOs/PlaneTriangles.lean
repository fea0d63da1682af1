import Mathlib.Analysis.Convex.Combination
import Mathlib.Analysis.Convex.Join
import Mathlib.Tactic.FieldSimp
import Mathlib.Tactic.Linarith
import Mathlib.Tactic.LinearCombination

/-!
# Triangles in the plane

The closed convex hull of three points by signs of cross products. Where the points lie on one
line the signs alone admit the whole line; together with the bounding box they do not.
-/

namespace JsOs.PlaneTriangles

section Areas

variable {K : Type*} [Field K] {A B C p : K × K}

/-- Twice the signed area of the triangle `p`, `q`, `s`. -/
def cross (p q s : K × K) : K := (s.1 - p.1) * (q.2 - p.2) - (s.2 - p.2) * (q.1 - p.1)

theorem cross_sum (A B C p : K × K) :
    cross A B p + cross B C p + cross C A p = cross A B C := by
  unfold cross
  ring

theorem cross_swap (A B p : K × K) : cross B A p = -cross A B p := by
  unfold cross
  ring

theorem cross_self (A p : K × K) : cross A A p = 0 := by
  unfold cross
  ring

/-- A point is the mean of the corners with the cross products as weights. -/
theorem mean_of_cross (h : cross A B C ≠ 0) :
    (cross B C p / cross A B C) • A + (cross C A p / cross A B C) • B +
      (cross A B p / cross A B C) • C = p := by
  refine Prod.ext ?_ ?_
  · simp only [Prod.fst_add, Prod.smul_fst, smul_eq_mul]
    field_simp
    unfold cross
    ring
  · simp only [Prod.snd_add, Prod.smul_snd, smul_eq_mul]
    field_simp
    unfold cross
    ring

end Areas

variable {K : Type*} [Field K] [LinearOrder K] [IsStrictOrderedRing K] {A B C p : K × K}

/-- Between the least and the greatest coordinate of three points, on both axes. -/
def InBox (A B C p : K × K) : Prop :=
  (min A.1 (min B.1 C.1) ≤ p.1 ∧ p.1 ≤ max A.1 (max B.1 C.1)) ∧
    min A.2 (min B.2 C.2) ≤ p.2 ∧ p.2 ≤ max A.2 (max B.2 C.2)

/-- On the inner side of all three edges. -/
def OnInnerSide (A B C p : K × K) : Prop :=
  0 ≤ cross A B C ∧ 0 ≤ cross A B p ∧ 0 ≤ cross B C p ∧ 0 ≤ cross C A p ∨
    cross A B C < 0 ∧ cross A B p ≤ 0 ∧ cross B C p ≤ 0 ∧ cross C A p ≤ 0

/-- The hull of three points by weights. -/
theorem mem_convexHull_triple : p ∈ convexHull K {A, B, C} ↔
    ∃ u v w : K, 0 ≤ u ∧ 0 ≤ v ∧ 0 ≤ w ∧ u + v + w = 1 ∧ u • A + v • B + w • C = p := by
  constructor
  · rw [← convexJoin_segment_singleton]
    intro hp
    obtain ⟨q, ⟨s, t, hs, ht, hst, rfl⟩, c, hc, s', t', hs', ht', hst', rfl⟩ := mem_convexJoin.mp hp
    rw [Set.mem_singleton_iff.mp hc]
    refine ⟨s' * s, s' * t, t', mul_nonneg hs' hs, mul_nonneg hs' ht, ht', ?_, ?_⟩
    · linear_combination s' * hst + hst'
    · rw [smul_add, smul_smul, smul_smul]
  · rintro ⟨u, v, w, hu, hv, hw, hsum, rfl⟩
    have hmem (i : Fin 3) : ![A, B, C] i ∈ convexHull K {A, B, C} := by
      apply subset_convexHull
      fin_cases i <;> simp
    have hnonneg (i : Fin 3) : 0 ≤ ![u, v, w] i := by
      fin_cases i <;> assumption
    have hcomb := (convex_convexHull K {A, B, C}).sum_mem (t := Finset.univ) (w := ![u, v, w])
      (z := ![A, B, C]) (fun i _ => hnonneg i) (by rw [Fin.sum_univ_three]; exact hsum)
      fun i _ => hmem i
    rwa [Fin.sum_univ_three] at hcomb

section Weights

variable {u v w : K}

/-- A weighted mean is not less than the least value. -/
theorem min_le_mean (hu : 0 ≤ u) (hv : 0 ≤ v) (hw : 0 ≤ w) (hsum : u + v + w = 1) (a b c : K) :
    min a (min b c) ≤ u * a + v * b + w * c := by
  have ha : u * min a (min b c) ≤ u * a := mul_le_mul_of_nonneg_left (min_le_left _ _) hu
  have hb : v * min a (min b c) ≤ v * b :=
    mul_le_mul_of_nonneg_left ((min_le_right _ _).trans (min_le_left _ _)) hv
  have hc : w * min a (min b c) ≤ w * c :=
    mul_le_mul_of_nonneg_left ((min_le_right _ _).trans (min_le_right _ _)) hw
  have htotal : min a (min b c) = u * min a (min b c) + v * min a (min b c) +
      w * min a (min b c) := by
    linear_combination -hsum * min a (min b c)
  linarith

theorem mean_le_max (hu : 0 ≤ u) (hv : 0 ≤ v) (hw : 0 ≤ w) (hsum : u + v + w = 1) (a b c : K) :
    u * a + v * b + w * c ≤ max a (max b c) := by
  have h := min_le_mean hu hv hw hsum (-a) (-b) (-c)
  rw [min_neg_neg, min_neg_neg] at h
  linarith

theorem inBox_of_mem (h : p ∈ convexHull K {A, B, C}) : InBox A B C p := by
  obtain ⟨u, v, w, hu, hv, hw, hsum, rfl⟩ := mem_convexHull_triple.mp h
  exact ⟨⟨min_le_mean hu hv hw hsum _ _ _, mean_le_max hu hv hw hsum _ _ _⟩,
    min_le_mean hu hv hw hsum _ _ _, mean_le_max hu hv hw hsum _ _ _⟩

/-- The cross products of a weighted mean are its weights, times the area. -/
theorem cross_mean (hsum : u + v + w = 1) :
    cross A B (u • A + v • B + w • C) = w * cross A B C ∧
      cross B C (u • A + v • B + w • C) = u * cross A B C ∧
      cross C A (u • A + v • B + w • C) = v * cross A B C := by
  obtain rfl : w = 1 - u - v := by linear_combination hsum
  simp only [cross, Prod.fst_add, Prod.snd_add, Prod.smul_fst, Prod.smul_snd, smul_eq_mul]
  refine ⟨?_, ?_, ?_⟩ <;> ring

theorem onInnerSide_of_mem (h : p ∈ convexHull K {A, B, C}) : OnInnerSide A B C p := by
  obtain ⟨u, v, w, hu, hv, hw, hsum, rfl⟩ := mem_convexHull_triple.mp h
  obtain ⟨hw', hu', hv'⟩ := cross_mean (A := A) (B := B) (C := C) hsum
  unfold OnInnerSide
  rw [hw', hu', hv']
  rcases le_or_gt 0 (cross A B C) with harea | harea
  · exact Or.inl ⟨harea, mul_nonneg hw harea, mul_nonneg hu harea, mul_nonneg hv harea⟩
  · exact Or.inr ⟨harea, mul_nonpos_of_nonneg_of_nonpos hw harea.le,
      mul_nonpos_of_nonneg_of_nonpos hu harea.le, mul_nonpos_of_nonneg_of_nonpos hv harea.le⟩

end Weights

theorem mem_of_area_ne_zero (h : OnInnerSide A B C p) (harea : cross A B C ≠ 0) :
    p ∈ convexHull K {A, B, C} := by
  have hsum : cross B C p / cross A B C + cross C A p / cross A B C + cross A B p / cross A B C =
      1 := by
    rw [← add_div, ← add_div, div_eq_one_iff_eq harea, ← cross_sum A B C p]
    ring
  rcases h with ⟨h, hc, ha, hb⟩ | ⟨h, hc, ha, hb⟩
  · exact mem_convexHull_triple.mpr ⟨_, _, _, div_nonneg ha h, div_nonneg hb h, div_nonneg hc h,
      hsum, mean_of_cross harea⟩
  · exact mem_convexHull_triple.mpr ⟨_, _, _, div_nonneg_of_nonpos ha h.le,
      div_nonneg_of_nonpos hb h.le, div_nonneg_of_nonpos hc h.le, hsum, mean_of_cross harea⟩

section Flat

/-- A point of a line that is not vertical, between two others. -/
theorem mem_segment_of_cross (h : cross A B p = 0) (hlt : A.1 < B.1) (hA : A.1 ≤ p.1)
    (hB : p.1 ≤ B.1) : p ∈ segment K A B := by
  have hpos : 0 < B.1 - A.1 := sub_pos.mpr hlt
  have hne : B.1 - A.1 ≠ 0 := hpos.ne'
  refine ⟨(B.1 - p.1) / (B.1 - A.1), (p.1 - A.1) / (B.1 - A.1),
    div_nonneg (sub_nonneg.mpr hB) hpos.le, div_nonneg (sub_nonneg.mpr hA) hpos.le, ?_,
    Prod.ext ?_ ?_⟩
  · rw [← add_div, sub_add_sub_cancel, div_self hne]
  · simp only [Prod.fst_add, Prod.smul_fst, smul_eq_mul]
    field_simp
    ring
  · simp only [Prod.snd_add, Prod.smul_snd, smul_eq_mul]
    unfold cross at h
    field_simp
    linear_combination h

/-- A point between two others on a vertical line. -/
theorem mem_segment_of_vertical (hAB : A.1 = B.1) (hp : p.1 = A.1) (hA : A.2 ≤ p.2)
    (hB : p.2 ≤ B.2) : p ∈ segment K A B := by
  rcases (hA.trans hB).eq_or_lt with heq | hlt
  · obtain rfl : p = A := Prod.ext hp (le_antisymm (hB.trans heq.ge) hA)
    exact left_mem_segment K p B
  · have hswap : Prod.swap p ∈ segment K (Prod.swap A) (Prod.swap B) := by
      apply mem_segment_of_cross _ hlt hA hB
      unfold cross
      simp only [Prod.fst_swap, Prod.snd_swap, hp, hAB]
      ring
    obtain ⟨s, t, hs, ht, hst, heq⟩ := hswap
    obtain ⟨h₁, h₂⟩ := Prod.ext_iff.mp heq
    exact ⟨s, t, hs, ht, hst, Prod.ext h₂ h₁⟩

/-- Where three points lie on one line with `p`, and `p` is in their bounding box, `p` is between
two of them. -/
theorem mem_of_flat (hbox : InBox A B C p)
    (hflat : ∀ P ∈ ({A, B, C} : Set (K × K)), ∀ Q ∈ ({A, B, C} : Set (K × K)), cross P Q p = 0) :
    p ∈ convexHull K {A, B, C} := by
  have hpick {f : K × K → Prop} (h : f A ∨ f B ∨ f C) : ∃ P ∈ ({A, B, C} : Set (K × K)), f P := by
    rcases h with h | h | h
    · exact ⟨A, by simp, h⟩
    · exact ⟨B, by simp, h⟩
    · exact ⟨C, by simp, h⟩
  have hseg {P Q : K × K} (hP : P ∈ ({A, B, C} : Set (K × K)))
      (hQ : Q ∈ ({A, B, C} : Set (K × K))) : segment K P Q ⊆ convexHull K {A, B, C} :=
    (convex_convexHull K _).segment_subset (subset_convexHull K _ hP) (subset_convexHull K _ hQ)
  obtain ⟨⟨hl, hr⟩, hd, hu⟩ := hbox
  rw [min_le_iff, min_le_iff] at hl hd
  rw [le_max_iff, le_max_iff] at hr hu
  obtain ⟨L, hL, hl⟩ := hpick (f := fun P => P.1 ≤ p.1) hl
  obtain ⟨R, hR, hr⟩ := hpick (f := fun P => p.1 ≤ P.1) hr
  obtain ⟨D, hD, hd⟩ := hpick (f := fun P => P.2 ≤ p.2) hd
  obtain ⟨U, hU, hu⟩ := hpick (f := fun P => p.2 ≤ P.2) hu
  rcases (hl.trans hr).eq_or_lt with heq | hlt
  · have hp : p.1 = L.1 := le_antisymm (hr.trans heq.ge) hl
    by_cases hvertical : ∀ Q ∈ ({A, B, C} : Set (K × K)), Q.1 = L.1
    · refine hseg hD hU (mem_segment_of_vertical ?_ ?_ hd hu)
      · rw [hvertical D hD, hvertical U hU]
      · rw [hp, hvertical D hD]
    · push Not at hvertical
      obtain ⟨Q, hQ, hne⟩ := hvertical
      have hcross := hflat L hL Q hQ
      have hzero : (p.2 - L.2) * (Q.1 - L.1) = 0 := by
        unfold cross at hcross
        rw [hp, sub_self, zero_mul, zero_sub, neg_eq_zero] at hcross
        exact hcross
      have hsecond := (mul_eq_zero.mp hzero).resolve_right (sub_ne_zero.mpr hne)
      obtain rfl : p = L := Prod.ext hp (sub_eq_zero.mp hsecond)
      exact subset_convexHull K _ hL
  · exact hseg hL hR (mem_segment_of_cross (hflat L hL R hR) hlt hl hr)

end Flat

/-- The closed hull of three points is where the signs of the three cross products and the
bounding box agree. -/
theorem mem_hull_iff :
    p ∈ convexHull K {A, B, C} ↔ InBox A B C p ∧ OnInnerSide A B C p := by
  constructor
  · exact fun h => ⟨inBox_of_mem h, onInnerSide_of_mem h⟩
  · rintro ⟨hbox, hside⟩
    by_cases harea : cross A B C = 0
    · refine mem_of_flat hbox ?_
      have hsum := cross_sum A B C p
      rw [harea] at hsum
      rcases hside with ⟨-, hc, ha, hb⟩ | ⟨h, -⟩
      · have hc' : cross A B p = 0 := by linarith
        have ha' : cross B C p = 0 := by linarith
        have hb' : cross C A p = 0 := by linarith
        rintro P (rfl | rfl | rfl) Q (rfl | rfl | rfl)
        all_goals first
          | assumption
          | exact cross_self _ _
          | rw [cross_swap, neg_eq_zero]; assumption
      · exact absurd harea h.ne
    · exact mem_of_area_ne_zero hside harea

end JsOs.PlaneTriangles

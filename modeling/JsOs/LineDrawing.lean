import JsOs.DigitalLines
import JsOs.PointPlotting
import Mathlib.Algebra.Order.Ring.Abs
import Mathlib.Data.List.Chain
import Mathlib.Data.List.Range
import Mathlib.Tactic.LinearCombination

/-!
# `framebuffer_line`

Its loop, whose only exit is the equality of both coordinates, is the walk of a digital line with
the signs of the two axes.
-/

namespace JsOs.LineDrawing

open MachineWords FramebufferModel DrawingModel PointPlotting DigitalLines

variable {a b x0 y0 x1 y1 : ℤ} {d : Drawing} {color : UInt32}

/-- The variables `sx` and `sy` of `framebuffer_line`. -/
def heading (u v : ℤ) : ℤ := if u < v then 1 else -1

theorem heading_mul (u v : ℤ) : u + heading u v * |v - u| = v := by
  unfold heading
  rcases lt_or_ge u v with h | h
  · rw [if_pos h, abs_of_pos (sub_pos.mpr h)]
    ring
  · rw [if_neg (not_lt.mpr h), abs_of_nonpos (sub_nonpos.mpr h)]
    ring

theorem heading_cases (u v : ℤ) : heading u v = 1 ∨ heading u v = -1 := by
  unfold heading
  split_ifs
  · exact Or.inl rfl
  · exact Or.inr rfl

theorem heading_inj (u v : ℤ) {i j : ℤ} : u + heading u v * i = u + heading u v * j ↔ i = j := by
  rcases heading_cases u v with h | h <;> rw [h] <;> omega

/-- The point at which the line is after `n` rounds. -/
def linePoint (x0 y0 x1 y1 : ℤ) (n : ℕ) : ℤ × ℤ :=
  (x0 + heading x0 x1 * (path |x1 - x0| |y1 - y0| n).1,
    y0 + heading y0 y1 * (path |x1 - x0| |y1 - y0| n).2)

def lineSteps (x0 y0 x1 y1 : ℤ) : ℕ := (max |x1 - x0| |y1 - y0|).toNat

def linePoints (x0 y0 x1 y1 : ℤ) : List (ℤ × ℤ) :=
  (List.range (lineSteps x0 y0 x1 y1 + 1)).map (linePoint x0 y0 x1 y1)

/-- The variables of the loop in terms of the walk. -/
def cursorAt (x0 y0 x1 y1 : ℤ) (n : ℕ) : LineCursor :=
  let a := |x1 - x0|
  let b := |y1 - y0|
  ⟨(linePoint x0 y0 x1 y1 n).1, (linePoint x0 y0 x1 y1 n).2, drift a b (path a b n) + a - b⟩

theorem lineAdvance_eq {x y sx sy e : ℤ} (ha : 0 ≤ a) (ha' : a ≤ 2 ^ 61) (hb : 0 ≤ b)
    (hb' : b ≤ 2 ^ 61) (he : |2 * e| ≤ max a b) (hx : |x| < 2 ^ 63 - 1) (hy : |y| < 2 ^ 63 - 1)
    (hsx : sx = 1 ∨ sx = -1) (hsy : sy = 1 ∨ sy = -1) :
    lineAdvance a sx (-b) sy ⟨x, y, e + a - b⟩ =
      some ⟨if b ≤ 2 * e + 2 * a then x + sx else x, if 2 * e + a ≤ 2 * b then y + sy else y,
        e + (if 2 * e + a ≤ 2 * b then a else 0) - (if b ≤ 2 * e + 2 * a then b else 0) + a - b⟩ := by
  have hmax : max a b ≤ 2 ^ 61 := max_le ha' hb'
  obtain ⟨he₁, he₂⟩ := abs_le.mp he
  obtain ⟨hx₁, hx₂⟩ := abs_lt.mp hx
  obtain ⟨hy₁, hy₂⟩ := abs_lt.mp hy
  have hdoubled : checkInt64 ((e + a - b) * 2) = some ((e + a - b) * 2) :=
    checkInt64_of_lt (by omega) (by omega)
  have hstepx : checkInt64 (x + sx) = some (x + sx) := checkInt64_of_lt (by omega) (by omega)
  have hstepy : checkInt64 (y + sy) = some (y + sy) := checkInt64_of_lt (by omega) (by omega)
  have herrorx : checkInt64 (e + a - b + -b) = some (e + a - b + -b) :=
    checkInt64_of_lt (by omega) (by omega)
  have hcondx : (e + a - b) * 2 ≥ -b ↔ b ≤ 2 * e + 2 * a := by omega
  have hcondy : (e + a - b) * 2 ≤ a ↔ 2 * e + a ≤ 2 * b := by omega
  unfold lineAdvance
  simp only [hdoubled, Option.bind_eq_bind, Option.bind_some, hcondx, hcondy]
  by_cases h₁ : b ≤ 2 * e + 2 * a
  · have herrory : checkInt64 (e + a - b + -b + a) = some (e + a - b + -b + a) :=
      checkInt64_of_lt (by omega) (by omega)
    simp only [if_pos h₁, herrorx, hstepx, herrory, hstepy, Option.bind_some]
    split_ifs <;> congr 2 <;> ring
  · have herrory : checkInt64 (e + a - b + a) = some (e + a - b + a) :=
      checkInt64_of_lt (by omega) (by omega)
    simp only [if_neg h₁, herrory, hstepy, Option.bind_some]
    split_ifs <;> congr 2 <;> ring

/-- What `framebuffer_line` needs so that nothing overflows. -/
structure LineFits (x0 y0 x1 y1 : ℤ) : Prop where
  x0_lt : |x0| < 2 ^ 62
  y0_lt : |y0| < 2 ^ 62
  x1_lt : |x1| < 2 ^ 62
  y1_lt : |y1| < 2 ^ 62
  width_le : |x1 - x0| ≤ 2 ^ 61
  height_le : |y1 - y0| ≤ 2 ^ 61

theorem path_box {n : ℕ} (hn : n ≤ lineSteps x0 y0 x1 y1) :
    (0 ≤ (path |x1 - x0| |y1 - y0| n).1 ∧ (path |x1 - x0| |y1 - y0| n).1 ≤ |x1 - x0|) ∧
      0 ≤ (path |x1 - x0| |y1 - y0| n).2 ∧ (path |x1 - x0| |y1 - y0| n).2 ≤ |y1 - y0| := by
  obtain ⟨hlo, hhi⟩ := path_mem_box (abs_nonneg _) (abs_nonneg _) hn
  exact ⟨⟨hlo.1, hhi.1⟩, hlo.2, hhi.2⟩

/-- Between its ends, whatever the heading. -/
theorem between {u v i : ℤ} (h : 0 ≤ i ∧ i ≤ |v - u|) :
    min u v ≤ u + heading u v * i ∧ u + heading u v * i ≤ max u v := by
  have hend := heading_mul u v
  rcases heading_cases u v with h' | h' <;> rw [h'] at hend ⊢ <;> omega

theorem linePoint_box {n : ℕ} (hn : n ≤ lineSteps x0 y0 x1 y1) :
    (min x0 x1 ≤ (linePoint x0 y0 x1 y1 n).1 ∧ (linePoint x0 y0 x1 y1 n).1 ≤ max x0 x1) ∧
      min y0 y1 ≤ (linePoint x0 y0 x1 y1 n).2 ∧ (linePoint x0 y0 x1 y1 n).2 ≤ max y0 y1 :=
  ⟨between (path_box hn).1, between (path_box hn).2⟩

theorem lineAdvance_cursorAt (h : LineFits x0 y0 x1 y1) {n : ℕ} (hn : n ≤ lineSteps x0 y0 x1 y1) :
    lineAdvance |x1 - x0| (heading x0 x1) (-|y1 - y0|) (heading y0 y1) (cursorAt x0 y0 x1 y1 n) =
      some (cursorAt x0 y0 x1 y1 (n + 1)) := by
  have hx0 := abs_lt.mp h.x0_lt
  have hx1 := abs_lt.mp h.x1_lt
  have hy0 := abs_lt.mp h.y0_lt
  have hy1 := abs_lt.mp h.y1_lt
  obtain ⟨hbx, hby⟩ := linePoint_box hn
  have hstep := lineAdvance_eq (abs_nonneg (x1 - x0)) h.width_le (abs_nonneg (y1 - y0)) h.height_le
    (path_near (abs_nonneg _) (abs_nonneg _) n).1
    (show |(linePoint x0 y0 x1 y1 n).1| < 2 ^ 63 - 1 by rw [abs_lt]; omega)
    (show |(linePoint x0 y0 x1 y1 n).2| < 2 ^ 63 - 1 by rw [abs_lt]; omega)
    (heading_cases x0 x1) (heading_cases y0 y1)
  refine hstep.trans ?_
  unfold cursorAt linePoint
  simp only [path_succ, drift_advance]
  unfold advance
  congr 2 <;> dsimp only <;> split_ifs <;> ring

theorem linePoint_end : linePoint x0 y0 x1 y1 (lineSteps x0 y0 x1 y1) = (x1, y1) := by
  unfold linePoint lineSteps
  rw [path_end (abs_nonneg _) (abs_nonneg _)]
  exact Prod.ext (heading_mul x0 x1) (heading_mul y0 y1)

theorem linePoint_eq_end {n : ℕ} (hn : n ≤ lineSteps x0 y0 x1 y1) :
    linePoint x0 y0 x1 y1 n = (x1, y1) ↔ n = lineSteps x0 y0 x1 y1 := by
  constructor
  · intro h
    by_contra hne
    refine path_ne_end (abs_nonneg (x1 - x0)) (abs_nonneg (y1 - y0)) (lt_of_le_of_ne hn hne) ?_
    rw [← linePoint_end] at h
    unfold linePoint lineSteps at h
    rw [path_end (abs_nonneg _) (abs_nonneg _)] at h
    obtain ⟨hx, hy⟩ := Prod.ext_iff.mp h
    exact Prod.ext ((heading_inj x0 x1).mp hx) ((heading_inj y0 y1).mp hy)
  · rintro rfl
    exact linePoint_end

/-- The loop from its `n`-th round on; the induction is on the rounds that are left. -/
theorem lineFrom_eq (h : LineFits x0 y0 x1 y1) {k n fuel : ℕ} (hk : n + k = lineSteps x0 y0 x1 y1)
    (hfuel : k < fuel) (d : Drawing) (color : UInt32) :
    lineFrom |x1 - x0| (heading x0 x1) (-|y1 - y0|) (heading y0 y1) x1 y1 color fuel
        (cursorAt x0 y0 x1 y1 n) d =
      some (plotAll d ((List.range' n (k + 1)).map (linePoint x0 y0 x1 y1)) color) := by
  induction k generalizing n fuel d with
  | zero =>
    obtain ⟨fuel, rfl⟩ := Nat.exists_eq_succ_of_ne_zero (Nat.ne_of_gt hfuel)
    have hend := Prod.ext_iff.mp ((linePoint_eq_end hk.le).mpr hk)
    exact if_pos hend
  | succ k ih =>
    obtain ⟨fuel, rfl⟩ := Nat.exists_eq_succ_of_ne_zero (Nat.ne_of_gt (Nat.zero_lt_of_lt hfuel))
    have hgo : ¬((cursorAt x0 y0 x1 y1 n).x0 = x1 ∧ (cursorAt x0 y0 x1 y1 n).y0 = y1) := by
      intro hend
      have := (linePoint_eq_end (by omega)).mp (Prod.ext hend.1 hend.2)
      omega
    unfold lineFrom
    rw [if_neg hgo, lineAdvance_cursorAt h (by omega), Option.bind_some,
      ih (by omega) (Nat.lt_of_succ_lt_succ hfuel), List.range'_succ (n := k + 1), List.map_cons,
      plotAll_cons]
    rfl

theorem absolute_eq {v : ℤ} (h : |v| < 2 ^ 63) : absolute v = some |v| := by
  unfold absolute
  split_ifs with hneg
  · rw [abs_of_neg hneg] at h ⊢
    exact checkInt64_of_lt (by omega) h
  · rw [abs_of_nonneg (not_lt.mp hneg)]

/-- `framebuffer_line` plots the points of the walk, in their order, and returns. -/
theorem framebufferLine_eq (h : LineFits x0 y0 x1 y1) (d : Drawing) (color : UInt32) :
    framebufferLine d x0 y0 x1 y1 color = some (plotAll d (linePoints x0 y0 x1 y1) color) := by
  have hx0 := abs_lt.mp h.x0_lt
  have hx1 := abs_lt.mp h.x1_lt
  have hy0 := abs_lt.mp h.y0_lt
  have hy1 := abs_lt.mp h.y1_lt
  have hwidth := h.width_le
  have hheight := h.height_le
  have ha := abs_nonneg (x1 - x0)
  have hb := abs_nonneg (y1 - y0)
  have hsteps : lineSteps x0 y0 x1 y1 < drawingFuel := by
    have hmax : max |x1 - x0| |y1 - y0| ≤ 2 ^ 61 := max_le hwidth hheight
    unfold lineSteps drawingFuel
    omega
  have hloop := lineFrom_eq h (n := 0) (Nat.zero_add _) hsteps d color
  have hstart : cursorAt x0 y0 x1 y1 0 = ⟨x0, y0, |x1 - x0| + -|y1 - y0|⟩ := by
    unfold cursorAt linePoint
    simp only [path_zero, drift, mul_zero, add_zero, sub_self, zero_add, sub_eq_add_neg]
  rw [hstart] at hloop
  unfold framebufferLine
  simp only [Option.bind_eq_bind]
  rw [checkInt64_of_lt (v := x1 - x0) (by omega) (by omega), Option.bind_some,
    absolute_eq (by omega), Option.bind_some,
    checkInt64_of_lt (v := y1 - y0) (by omega) (by omega), Option.bind_some,
    absolute_eq (by omega), Option.bind_some, checkInt64_of_lt (by omega) (by omega),
    Option.bind_some, checkInt64_of_lt (by omega) (by omega), Option.bind_some]
  rw [← List.range_eq_range'] at hloop
  exact hloop

theorem linePoint_injective {n m : ℕ} (h : linePoint x0 y0 x1 y1 n = linePoint x0 y0 x1 y1 m) :
    n = m := by
  obtain ⟨-, hx, hy⟩ := path_near (abs_nonneg (x1 - x0)) (abs_nonneg (y1 - y0)) n
  obtain ⟨-, hx', hy'⟩ := path_near (abs_nonneg (x1 - x0)) (abs_nonneg (y1 - y0)) m
  obtain ⟨h₁, h₂⟩ := Prod.ext_iff.mp h
  have hfirst := (heading_inj x0 x1).mp h₁
  have hsecond := (heading_inj y0 y1).mp h₂
  rcases le_total |y1 - y0| |x1 - x0| with hab | hab
  · rw [hx hab, hx' hab] at hfirst
    exact Nat.cast_injective hfirst
  · rw [hy hab, hy' hab] at hsecond
    exact Nat.cast_injective hsecond

/-- From one visited point to the next: a neighbour, ahead on the longer axis. -/
structure StepsAhead (x0 y0 x1 y1 : ℤ) (p q : ℤ × ℤ) : Prop where
  near_x : |q.1 - p.1| ≤ 1
  near_y : |q.2 - p.2| ≤ 1
  ahead_x : |y1 - y0| ≤ |x1 - x0| → q.1 = p.1 + heading x0 x1
  ahead_y : |x1 - x0| ≤ |y1 - y0| → q.2 = p.2 + heading y0 y1

theorem linePoint_ahead (n : ℕ) :
    StepsAhead x0 y0 x1 y1 (linePoint x0 y0 x1 y1 n) (linePoint x0 y0 x1 y1 (n + 1)) := by
  obtain ⟨hx, hy⟩ := path_step (a := |x1 - x0|) (b := |y1 - y0|) n
  obtain ⟨-, hn, hn'⟩ := path_near (abs_nonneg (x1 - x0)) (abs_nonneg (y1 - y0)) n
  obtain ⟨-, hs, hs'⟩ := path_near (abs_nonneg (x1 - x0)) (abs_nonneg (y1 - y0)) (n + 1)
  have hmove {u s i j : ℤ} (hs : s = 1 ∨ s = -1) (hij : j = i ∨ j = i + 1) :
      |u + s * j - (u + s * i)| ≤ 1 := by
    rw [abs_le]
    rcases hs with rfl | rfl <;> omega
  constructor
  · exact hmove (heading_cases x0 x1) hx
  · exact hmove (heading_cases y0 y1) hy
  · intro hab
    unfold linePoint
    rw [hn hab, hs hab, Nat.cast_succ]
    ring
  · intro hab
    unfold linePoint
    rw [hn' hab, hs' hab, Nat.cast_succ]
    ring

/-- The drift of a visited point, with the signs of both axes. -/
theorem linePoint_drift (n : ℕ) :
    |(x1 - x0) * ((linePoint x0 y0 x1 y1 n).2 - y0) -
        (y1 - y0) * ((linePoint x0 y0 x1 y1 n).1 - x0)| =
      |drift |x1 - x0| |y1 - y0| (path |x1 - x0| |y1 - y0| n)| := by
  unfold linePoint
  have hx : x1 - x0 = heading x0 x1 * |x1 - x0| := by linear_combination -heading_mul x0 x1
  have hy : y1 - y0 = heading y0 y1 * |y1 - y0| := by linear_combination -heading_mul y0 y1
  generalize path |x1 - x0| |y1 - y0| n = p
  have hsign : (x1 - x0) * (y0 + heading y0 y1 * p.2 - y0) -
      (y1 - y0) * (x0 + heading x0 x1 * p.1 - x0) =
      heading x0 x1 * heading y0 y1 * drift |x1 - x0| |y1 - y0| p := by
    unfold drift
    linear_combination heading y0 y1 * p.2 * hx - heading x0 x1 * p.1 * hy
  dsimp only
  rw [hsign, abs_mul]
  rcases heading_cases x0 x1 with h | h <;> rcases heading_cases y0 y1 with h' | h' <;>
    rw [h, h'] <;> exact one_mul _

/-- `framebuffer_line` takes `max |dx| |dy|` steps, through different points of the bounding box
of its ends, each within half a pixel of the ideal segment. -/
theorem framebufferLine_accurate (d : Drawing) (color : UInt32) (hx0 : |x0| < 2 ^ 60)
    (hy0 : |y0| < 2 ^ 60) (hx1 : |x1| < 2 ^ 60) (hy1 : |y1| < 2 ^ 60) :
    ∃ visited : List (ℤ × ℤ),
      framebufferLine d x0 y0 x1 y1 color = some (plotAll d visited color) ∧
      (plotAll d visited color).plotted = d.plotted ++ visited ∧
      visited.length = (max |x1 - x0| |y1 - y0|).toNat + 1 ∧ visited.Nodup ∧
      visited.head? = some (x0, y0) ∧ visited.getLast? = some (x1, y1) ∧
      visited.IsChain (StepsAhead x0 y0 x1 y1) ∧
      ∀ p ∈ visited, (min x0 x1 ≤ p.1 ∧ p.1 ≤ max x0 x1) ∧ (min y0 y1 ≤ p.2 ∧ p.2 ≤ max y0 y1) ∧
        2 * |(x1 - x0) * (p.2 - y0) - (y1 - y0) * (p.1 - x0)| ≤ max |x1 - x0| |y1 - y0| := by
  have hfits : LineFits x0 y0 x1 y1 := by
    rw [abs_lt] at hx0 hy0 hx1 hy1
    constructor <;> first | rw [abs_lt] | rw [abs_le]
    all_goals omega
  refine ⟨linePoints x0 y0 x1 y1, framebufferLine_eq hfits d color, plotAll_plotted .., ?_, ?_, ?_,
    ?_, ?_, ?_⟩
  · unfold linePoints
    rw [List.length_map, List.length_range]
    rfl
  · exact List.Nodup.map_on (fun _ _ _ _ h => linePoint_injective h) List.nodup_range
  · unfold linePoints
    rw [List.range_succ_eq_map, List.map_cons, List.head?_cons]
    simp [linePoint, path_zero]
  · unfold linePoints
    rw [List.range_succ, List.map_append, List.map_singleton, List.getLast?_concat, linePoint_end]
  · unfold linePoints
    rw [List.isChain_map, List.isChain_range_succ]
    exact fun n _ => linePoint_ahead n
  · intro p hp
    obtain ⟨n, hn, rfl⟩ := List.mem_map.mp hp
    have hle : n ≤ lineSteps x0 y0 x1 y1 := Nat.le_of_lt_succ (List.mem_range.mp hn)
    obtain ⟨hx, hy⟩ := linePoint_box hle
    have hnear := (path_near (abs_nonneg (x1 - x0)) (abs_nonneg (y1 - y0)) n).1
    rw [linePoint_drift]
    rw [abs_mul] at hnear
    exact ⟨hx, hy, hnear⟩

/-- Down and to the left, longer on the second axis. -/
theorem framebufferLine_accurate_steep : ∃ visited : List (ℤ × ℤ),
    (framebufferLine ⟨FramebufferPainting.smallScreen, []⟩ 3 2 1 7 5).map Drawing.plotted =
      some visited ∧
    visited.length = 6 ∧ visited.head? = some (3, 2) ∧ visited.getLast? = some (1, 7) ∧
    ∀ p ∈ visited, 2 * |(-2) * (p.2 - 2) - 5 * (p.1 - 3)| ≤ 5 := by
  obtain ⟨visited, hline, hplotted, hlength, -, hfirst, hlast, -, hnear⟩ :=
    framebufferLine_accurate ⟨FramebufferPainting.smallScreen, []⟩ 5
      (show |(3 : ℤ)| < 2 ^ 60 by decide) (show |(2 : ℤ)| < 2 ^ 60 by decide)
      (show |(1 : ℤ)| < 2 ^ 60 by decide) (show |(7 : ℤ)| < 2 ^ 60 by decide)
  refine ⟨visited, ?_, hlength, hfirst, hlast, fun p hp => (hnear p hp).2.2⟩
  rw [hline, Option.map_some, hplotted, List.nil_append]

end JsOs.LineDrawing

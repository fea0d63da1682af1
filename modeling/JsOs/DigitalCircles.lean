import Mathlib.Algebra.Order.Ring.Abs
import Mathlib.Algebra.Order.Ring.Int
import Mathlib.Data.Nat.Find
import Mathlib.Data.Nat.Sqrt
import Mathlib.Tactic.Linarith
import Mathlib.Tactic.Ring

/-!
# Digital circles

The points of an octant that are nearest to a circle about the origin on their main axis, the walk
from row to row that finds them, and the disc that their spans cover.
-/

namespace JsOs.DigitalCircles

variable {r x y m n a b : ℤ}

/-- `(m, n)` is nearest to the circle of radius `r` in its row `n`: the point half a unit inside of
it is inside the circle, the one half a unit outside is not. -/
def OnArc (r m n : ℤ) : Prop := m * m - m + n * n < r * r ∧ r * r ≤ m * m + m + n * n

/-- Four times the value of the circle's equation at `(x - 1 / 2, y + 1)`, rounded. -/
def decision (r x y : ℤ) : ℤ := (y + 1) * (y + 1) + x * x - x - r * r

theorem onArc_start (hr : 1 ≤ r) : OnArc r r 0 := by
  constructor <;> linarith

/-- A row has one nearest point. -/
theorem OnArc.unique (h : OnArc r m n) (h' : OnArc r x n) (hm : 0 ≤ m) (hx : 0 ≤ x) : m = x := by
  obtain ⟨h₁, h₂⟩ := h
  obtain ⟨h₁', h₂'⟩ := h'
  rcases lt_trichotomy m x with hlt | heq | hlt
  · nlinarith
  · exact heq
  · nlinarith

theorem OnArc.le_radius (h : OnArc r m n) (hr : 0 ≤ r) : m ≤ r := by
  by_contra hlt
  nlinarith [h.1, mul_self_nonneg n]

theorem OnArc.decision_bounds (h : OnArc r x y) :
    2 * y + 1 - 2 * x ≤ decision r x y ∧ decision r x y < 2 * y + 1 := by
  obtain ⟨h₁, h₂⟩ := h
  unfold decision
  constructor <;> linarith

theorem decision_start : decision r r 0 = 1 - r := by
  unfold decision
  ring

theorem decision_east : decision r x (y + 1) = decision r x y + (2 * (y + 1) + 1) := by
  unfold decision
  ring

theorem decision_southeast :
    decision r (x - 1) (y + 1) = decision r x y + (2 * (y + 1 - (x - 1)) + 1) := by
  unfold decision
  ring

/-- Where the walk is before it enters row `y`; once it has left the octant, no row from `y` on has
a point in the octant. -/
structure Walk (r x y : ℤ) : Prop where
  row_nonneg : 0 ≤ y
  le_radius : x ≤ r
  row_le : y ≤ x + 2
  onArc : y ≤ x → OnArc r x y
  left_octant : x < y → r * r ≤ 2 * (y * y) - y

theorem walk_start (hr : 1 ≤ r) : Walk r r 0 :=
  ⟨le_refl 0, le_refl r, by omega, fun _ => onArc_start hr, fun h => by omega⟩

theorem Walk.east (W : Walk r x y) (hxy : y ≤ x) (h : decision r x y < 0) : Walk r x (y + 1) := by
  obtain ⟨h₁, h₂⟩ := W.onArc hxy
  have hy := W.row_nonneg
  unfold decision at h
  refine ⟨by omega, W.le_radius, by omega, fun _ => ⟨?_, ?_⟩, fun hleft => ?_⟩
  · linarith
  · linarith
  · obtain rfl : x = y := by omega
    linarith

theorem Walk.southeast (W : Walk r x y) (hxy : y ≤ x) (h : 0 ≤ decision r x y) :
    Walk r (x - 1) (y + 1) := by
  obtain ⟨h₁, h₂⟩ := W.onArc hxy
  have hy := W.row_nonneg
  have hle := W.le_radius
  unfold decision at h
  refine ⟨by omega, by omega, by omega, fun hin => ⟨?_, ?_⟩, fun hleft => ?_⟩
  · linarith
  · linarith
  · nlinarith

/-- No point of the octant is on the arc in the rows that the walk does not reach. -/
theorem Walk.no_more (W : Walk r x y) (hleft : x < y) (hn : y ≤ n) (hnm : n ≤ m) : ¬OnArc r m n := by
  rintro ⟨h, -⟩
  have hdone := W.left_octant hleft
  have hy := W.row_nonneg
  have hrow : y * y ≤ n * n := mul_self_le_mul_self hy hn
  have hcolumn : y * y - y ≤ m * m - m := by
    rcases (hn.trans hnm).eq_or_lt with rfl | hlt
    · exact le_refl _
    · nlinarith
  linarith

/-- A row that meets the open disc has a nearest point. -/
theorem exists_onArc (h : n * n < r * r) : ∃ m, 1 ≤ m ∧ OnArc r m n := by
  obtain ⟨k, hk⟩ := Int.eq_ofNat_of_zero_le (show 0 ≤ r * r - n * n by omega)
  have hlarge : ∃ m : ℕ, k ≤ m * m + m := ⟨k, Nat.le_add_left k (k * k)⟩
  obtain ⟨m, hm, hleast⟩ : ∃ m : ℕ, k ≤ m * m + m ∧ ∀ l < m, ¬k ≤ l * l + l :=
    ⟨Nat.find hlarge, Nat.find_spec hlarge, fun l hl => Nat.find_min hlarge hl⟩
  cases m with
  | zero => omega
  | succ l =>
    have hsmall := hleast l (Nat.lt_succ_self l)
    have hsmall' : ((l * l + l : ℕ) : ℤ) < k := Int.ofNat_lt.mpr (not_le.mp hsmall)
    have hm' : (k : ℤ) ≤ (((l + 1) * (l + 1) + (l + 1) : ℕ) : ℤ) := Int.ofNat_le.mpr hm
    push_cast at hsmall' hm'
    refine ⟨l + 1, by omega, ?_, ?_⟩ <;> linarith

/-- The points between the arcs in the rows of the walk and, with the axes exchanged, in its
columns. -/
def Spanned (m n a b : ℤ) : Prop := |b| = n ∧ |a| ≤ m ∨ |b| = m ∧ |a| ≤ n

theorem spanned_of_disc_nonneg (hr : 1 ≤ r) (ha : 0 ≤ a) (hb : 0 ≤ b)
    (h : a * a + b * b ≤ r * r) :
    ∃ m n, 0 ≤ n ∧ n ≤ m ∧ OnArc r m n ∧ (b = n ∧ a ≤ m ∨ b = m ∧ a ≤ n) := by
  rcases lt_or_ge (b * b) (r * r) with hrow | hrow
  · obtain ⟨m, hm, hon⟩ := exists_onArc hrow
    rcases le_or_gt b m with hbm | hbm
    · -- the row is in the octant
      refine ⟨m, b, hb, hbm, hon, Or.inl ⟨rfl, ?_⟩⟩
      by_contra hlt
      nlinarith [hon.2]
    · -- it is a column of the octant; `n` is the last row below the arc
      obtain ⟨k, hk⟩ := Int.eq_ofNat_of_zero_le (show 0 ≤ r * r - b * b + b - 1 by omega)
      have hlo : ((k.sqrt * k.sqrt : ℕ) : ℤ) ≤ k := Int.ofNat_le.mpr (Nat.sqrt_le k)
      have hhi : (k : ℤ) < ((k.sqrt + 1) * (k.sqrt + 1) : ℕ) := Int.ofNat_lt.mpr (Nat.lt_succ_sqrt k)
      push_cast at hlo hhi
      have hn : (k.sqrt : ℤ) < b := by
        by_contra hge
        have hsquare := mul_self_le_mul_self hb (not_lt.mp hge)
        have hcolumn : m * (m + 1) ≤ (b - 1) * b :=
          mul_le_mul (by omega) (by omega) (by omega) (by omega)
        linarith [hon.2]
      refine ⟨b, k.sqrt, Int.natCast_nonneg _, hn.le, ⟨by linarith, by linarith⟩,
        Or.inr ⟨rfl, ?_⟩⟩
      by_contra hlt
      have hfar : (k.sqrt : ℤ) + 1 ≤ a := by omega
      have hsquare := mul_self_le_mul_self (by omega) hfar
      linarith
  · have hzero : a * a = 0 := le_antisymm (by linarith) (mul_self_nonneg a)
    obtain rfl : a = 0 := mul_self_eq_zero.mp hzero
    obtain rfl : b = r := (mul_self_inj hb (by omega)).mp (by linarith)
    exact ⟨b, 0, le_refl 0, hb, onArc_start hr, Or.inr ⟨rfl, le_refl 0⟩⟩

/-- The spans cover the disc. -/
theorem spanned_of_disc (hr : 1 ≤ r) (h : a * a + b * b ≤ r * r) :
    ∃ m n, 0 ≤ n ∧ n ≤ m ∧ OnArc r m n ∧ Spanned m n a b := by
  rw [← abs_mul_abs_self a, ← abs_mul_abs_self b] at h
  exact spanned_of_disc_nonneg hr (abs_nonneg a) (abs_nonneg b) h

/-- The spans do not reach beyond the disc of area `r * r + r`. -/
theorem disc_of_spanned (hr : 0 ≤ r) (hon : OnArc r m n) (h : Spanned m n a b) :
    a * a + b * b ≤ r * r + r := by
  have hm := hon.le_radius hr
  have hcorner : m * m + n * n ≤ r * r + r := by linarith [hon.1]
  rw [← abs_mul_abs_self a, ← abs_mul_abs_self b]
  rcases h with ⟨hb, ha⟩ | ⟨hb, ha⟩
  · have hsq := mul_self_le_mul_self (abs_nonneg a) ha
    rw [hb]
    linarith
  · have hsq := mul_self_le_mul_self (abs_nonneg a) ha
    rw [hb]
    linarith

end JsOs.DigitalCircles

import Mathlib.Algebra.Order.Ring.Int
import Mathlib.Algebra.Order.Group.Unbundled.Abs
import Mathlib.Data.Int.ConditionallyCompleteOrder
import Mathlib.Order.Iterate
import Mathlib.Tactic.Ring
import Mathlib.Tactic.SplitIfs
import Mathlib.Tactic.Linarith

/-!
# Digital lines

The walk from the origin to `(a, b)` in the first quadrant that decides each of its steps by the
drift from the ideal line. It takes `max a b` steps and never drifts by more than half a step on
the shorter axis.
-/

namespace JsOs.DigitalLines

variable {a b : ℤ} {p : ℤ × ℤ}

/-- Twice the area between the walk and the line. -/
def drift (a b : ℤ) (p : ℤ × ℤ) : ℤ := a * p.2 - b * p.1

def advance (a b : ℤ) (p : ℤ × ℤ) : ℤ × ℤ :=
  (if b ≤ 2 * drift a b p + 2 * a then p.1 + 1 else p.1,
    if 2 * drift a b p + a ≤ 2 * b then p.2 + 1 else p.2)

def path (a b : ℤ) (n : ℕ) : ℤ × ℤ := (advance a b)^[n] (0, 0)

theorem path_zero : path a b 0 = (0, 0) := rfl

theorem path_succ (n : ℕ) : path a b (n + 1) = advance a b (path a b n) :=
  Function.iterate_succ_apply' _ _ _

theorem drift_advance : drift a b (advance a b p) = drift a b p +
    (if 2 * drift a b p + a ≤ 2 * b then a else 0) -
    (if b ≤ 2 * drift a b p + 2 * a then b else 0) := by
  generalize hx : (if b ≤ 2 * drift a b p + 2 * a then b else 0) = x
  generalize hy : (if 2 * drift a b p + a ≤ 2 * b then a else 0) = y
  unfold advance drift at *
  split_ifs at * <;> subst hx hy <;> ring

/-- A step keeps the drift small, and is a step on the longer axis. -/
theorem advance_near (ha : 0 ≤ a) (hb : 0 ≤ b) (h : |2 * drift a b p| ≤ max a b) :
    |2 * drift a b (advance a b p)| ≤ max a b ∧
      (b ≤ a → (advance a b p).1 = p.1 + 1) ∧ (a ≤ b → (advance a b p).2 = p.2 + 1) := by
  rw [drift_advance]
  unfold advance
  generalize drift a b p = e at *
  rw [abs_le] at *
  dsimp only
  rcases le_total b a with hab | hab
  · rw [max_eq_left hab] at *
    split_ifs <;> omega
  · rw [max_eq_right hab] at *
    split_ifs <;> omega

theorem path_near (ha : 0 ≤ a) (hb : 0 ≤ b) (n : ℕ) :
    |2 * drift a b (path a b n)| ≤ max a b ∧
      (b ≤ a → (path a b n).1 = n) ∧ (a ≤ b → (path a b n).2 = n) := by
  induction n with
  | zero =>
    have hstart : drift a b (path a b 0) = 0 := by simp [path_zero, drift]
    rw [hstart, mul_zero, abs_zero]
    exact ⟨le_max_of_le_left ha, fun _ => rfl, fun _ => rfl⟩
  | succ n ih =>
    obtain ⟨hnear, hx, hy⟩ := ih
    obtain ⟨hnear', hx', hy'⟩ := advance_near ha hb hnear
    rw [path_succ]
    refine ⟨hnear', fun hab => ?_, fun hab => ?_⟩
    · rw [hx' hab, hx hab, Nat.cast_succ]
    · rw [hy' hab, hy hab, Nat.cast_succ]

theorem path_mono : Monotone (path a b) := by
  refine monotone_nat_of_le_succ fun n => ?_
  rw [path_succ]
  unfold advance
  constructor <;> dsimp only <;> split_ifs <;> omega

/-- Less than half a step off means not off at all. -/
theorem eq_of_drift_le {c u v : ℤ} (hc : 0 < c) (h : |2 * (c * u - v * c)| ≤ c) : u = v := by
  rw [abs_le] at h
  rcases lt_trichotomy u v with hlt | heq | hlt
  · nlinarith
  · exact heq
  · nlinarith

theorem path_end (ha : 0 ≤ a) (hb : 0 ≤ b) : path a b (max a b).toNat = (a, b) := by
  obtain ⟨hnear, hx, hy⟩ := path_near ha hb (max a b).toNat
  unfold drift at hnear
  rcases le_total b a with hab | hab
  · rw [max_eq_left hab] at *
    have hfirst : (path a b a.toNat).1 = a := by rw [hx hab, Int.toNat_of_nonneg ha]
    rw [hfirst] at hnear
    rcases ha.eq_or_lt with rfl | hpos
    · exact Prod.ext rfl (by simp only [Int.toNat_zero, path_zero]; omega)
    · exact Prod.ext hfirst (eq_of_drift_le hpos hnear)
  · rw [max_eq_right hab] at *
    have hsecond : (path a b b.toNat).2 = b := by rw [hy hab, Int.toNat_of_nonneg hb]
    rw [hsecond] at hnear
    rcases hb.eq_or_lt with rfl | hpos
    · exact Prod.ext (by simp only [Int.toNat_zero, path_zero]; omega) rfl
    · have hnear' : |2 * (b * (path a b b.toNat).1 - a * b)| ≤ b := by
        rw [← abs_neg]
        convert hnear using 2
        ring
      exact Prod.ext (eq_of_drift_le hpos hnear') hsecond

/-- The walk stays between its ends. -/
theorem path_mem_box (ha : 0 ≤ a) (hb : 0 ≤ b) {n : ℕ} (hn : n ≤ (max a b).toNat) :
    (0, 0) ≤ path a b n ∧ path a b n ≤ (a, b) := by
  refine ⟨path_mono (Nat.zero_le n), ?_⟩
  rw [← path_end ha hb]
  exact path_mono hn

/-- The walk does not come to its end early. -/
theorem path_ne_end (ha : 0 ≤ a) (hb : 0 ≤ b) {n : ℕ} (hn : n < (max a b).toNat) :
    path a b n ≠ (a, b) := by
  obtain ⟨-, hx, hy⟩ := path_near ha hb n
  intro heq
  rw [heq] at hx hy
  omega

theorem path_step (n : ℕ) :
    ((path a b (n + 1)).1 = (path a b n).1 ∨ (path a b (n + 1)).1 = (path a b n).1 + 1) ∧
      ((path a b (n + 1)).2 = (path a b n).2 ∨ (path a b (n + 1)).2 = (path a b n).2 + 1) := by
  rw [path_succ]
  unfold advance
  constructor <;> dsimp only <;> split_ifs <;> omega

end JsOs.DigitalLines

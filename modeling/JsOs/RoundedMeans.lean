import Mathlib.Tactic.Ring
import Mathlib.Tactic.Linarith

/-!
# Rounded means and scaled numbers

The mean of two numbers with weights `w` and `255 - w`, rounded, lies between them. A number of
`n` bits that is scaled to eight bits comes back when its low bits are dropped.
-/

namespace JsOs.RoundedMeans

def Between (a b c : ℕ) : Prop := min a b ≤ c ∧ c ≤ max a b

/-- `a` with weight `w`, `b` with the rest of 255. -/
def mean (w a b : ℕ) : ℕ := (a * w + b * (255 - w) + 127) / 255

section Mean

variable {w a b c : ℕ}

theorem mean_le (hw : w ≤ 255) (ha : a ≤ c) (hb : b ≤ c) : mean w a b ≤ c := by
  have h₁ : a * w ≤ c * w := Nat.mul_le_mul_right _ ha
  have h₂ : b * (255 - w) ≤ c * (255 - w) := Nat.mul_le_mul_right _ hb
  have hsum : c * w + c * (255 - w) = c * 255 := by rw [← Nat.mul_add, Nat.add_sub_of_le hw]
  unfold mean
  omega

theorem le_mean (hw : w ≤ 255) (ha : c ≤ a) (hb : c ≤ b) : c ≤ mean w a b := by
  have h₁ : c * w ≤ a * w := Nat.mul_le_mul_right _ ha
  have h₂ : c * (255 - w) ≤ b * (255 - w) := Nat.mul_le_mul_right _ hb
  have hsum : c * w + c * (255 - w) = c * 255 := by rw [← Nat.mul_add, Nat.add_sub_of_le hw]
  unfold mean
  omega

theorem mean_between (hw : w ≤ 255) (a b : ℕ) : Between a b (mean w a b) :=
  ⟨le_mean hw (min_le_left a b) (min_le_right a b), mean_le hw (le_max_left a b) (le_max_right a b)⟩

/-- The mean falls below `b` when `a` draws it down by more than half. -/
theorem le_mean_iff (hw : w ≤ 255) (a b : ℕ) :
    b ≤ mean w a b ↔ ((b : ℤ) - a) * w ≤ 127 := by
  have hsum : b * w + b * (255 - w) = b * 255 := by rw [← Nat.mul_add, Nat.add_sub_of_le hw]
  have hcast : ((b : ℤ) - a) * w = (b * w : ℕ) - (a * w : ℕ) := by
    push_cast
    ring
  rw [mean, Nat.le_div_iff_mul_le (by decide), hcast]
  omega

theorem mean_swap (hw : w ≤ 255) (a b : ℕ) : mean w a b = mean (255 - w) b a := by
  rw [mean, mean, Nat.sub_sub_self hw, Nat.add_comm (a * w)]

theorem Between.mono {f : ℕ → ℕ} (hf : Monotone f) (h : Between a b c) :
    Between (f a) (f b) (f c) := by
  unfold Between at h ⊢
  rw [← hf.map_min, ← hf.map_max]
  exact ⟨hf h.1, hf h.2⟩

end Mean

section Scaling

variable {n v : ℕ}

/-- Scaling `n` bits up to eight and dropping the low bits again. -/
theorem scale_div (hn : 1 ≤ n) (hn8 : n ≤ 8) (hv : v < 2 ^ n) :
    v * 255 / (2 ^ n - 1) / 2 ^ (8 - n) = v := by
  have hpow : 2 ^ (8 - n) * 2 ^ n = 2 ^ 8 := by rw [← pow_add, Nat.sub_add_cancel hn8]
  have hpos := Nat.two_pow_pos (8 - n)
  have htwo : 2 ^ 1 ≤ 2 ^ n := Nat.pow_le_pow_right (by decide) hn
  generalize 2 ^ (8 - n) = w at *
  obtain ⟨m, hm⟩ : ∃ m, 2 ^ n = m + 1 := ⟨2 ^ n - 1, by omega⟩
  rw [hm] at hv hpow htwo ⊢
  rw [Nat.add_sub_cancel]
  -- 255 is `w` times the largest number, and what `w` lacks of a next unit
  have hsplit : v * 255 = v * (w - 1) + v * w * m := by
    obtain ⟨u, rfl⟩ : ∃ u, w = u + 1 := ⟨w - 1, by omega⟩
    rw [show 255 = u + (u + 1) * m by linarith only [hpow], Nat.add_sub_cancel]
    ring
  have hrest : v * (w - 1) / m < w := by
    have hle : v * (w - 1) ≤ m * (w - 1) := Nat.mul_le_mul_right _ (by omega)
    have hdiv := Nat.div_le_of_le_mul hle
    omega
  rw [hsplit, Nat.add_mul_div_right _ _ (by omega), Nat.add_mul_div_right _ _ hpos,
    Nat.div_eq_of_lt hrest, Nat.zero_add]

end Scaling

end JsOs.RoundedMeans

import Mathlib.Data.Nat.Bitwise
import Mathlib.Data.Int.Init
import Mathlib.Data.UInt

/-!
# Machine words

Characters are bytes. `size_t` and `uint64_t` values are naturals below `2 ^ 64`; their sums,
differences and products wrap. Signed operations are checked.
-/

namespace JsOs.MachineWords

/-- The byte of an ASCII character. -/
def chr (c : Char) : UInt8 := c.toNat.toUInt8

def ascii (s : String) : List UInt8 := s.toList.map chr

def sizeMax : ℕ := 2 ^ 64 - 1

def add64 (a b : ℕ) : ℕ := (a + b) % 2 ^ 64

def sub64 (a b : ℕ) : ℕ := (a + (2 ^ 64 - b)) % 2 ^ 64

def mul64 (a b : ℕ) : ℕ := a * b % 2 ^ 64

def not64 (a : ℕ) : ℕ := 2 ^ 64 - 1 - a

/-- `int64_t`: two's complement, and no result where an operation overflows. -/
def int64Max : ℤ := 2 ^ 63 - 1

def checkInt64 (v : ℤ) : Option ℤ := if -2 ^ 63 ≤ v ∧ v ≤ int64Max then some v else none

/-- The conversion of a `uint64_t` to `int64_t`. -/
def toInt64 (a : ℕ) : ℤ := if a < 2 ^ 63 then a else a - 2 ^ 64

def int32Max : ℤ := 2 ^ 31 - 1

def checkInt32 (v : ℤ) : Option ℤ := if -2 ^ 31 ≤ v ∧ v ≤ int32Max then some v else none

/-- The conversion of a `size_t` to `int`. -/
def toInt32 (a : ℕ) : ℤ := if a % 2 ^ 32 < 2 ^ 31 then (a % 2 ^ 32 : ℕ) else (a % 2 ^ 32 : ℕ) - 2 ^ 32

variable {a b : ℕ}

theorem toInt32_eq (h : a < 2 ^ 31) : toInt32 a = a := by
  unfold toInt32
  split_ifs <;> omega

theorem add64_eq (h : a + b < 2 ^ 64) : add64 a b = a + b := Nat.mod_eq_of_lt h

theorem sub64_eq (h : b ≤ a) (ha : a < 2 ^ 64) : sub64 a b = a - b := by
  unfold sub64
  omega

theorem mul64_eq (h : a * b < 2 ^ 64) : mul64 a b = a * b := Nat.mod_eq_of_lt h

theorem add64_assoc (a b c : ℕ) : add64 (add64 a b) c = add64 a (b + c) := by
  unfold add64
  omega

/-- The mask of the bits from `k` up to `n`. -/
theorem and_mask {n k : ℕ} (h : k ≤ n) (a : ℕ) :
    a &&& (2 ^ n - 2 ^ k) = a % 2 ^ n / 2 ^ k * 2 ^ k := by
  have hmask : 2 ^ n - 2 ^ k = (2 ^ (n - k) - 1) <<< k := by
    rw [Nat.shiftLeft_eq, Nat.sub_mul, ← pow_add, Nat.sub_add_cancel h, Nat.one_mul]
  rw [hmask, ← Nat.shiftLeft_eq, ← Nat.shiftRight_eq_div_pow]
  apply Nat.eq_of_testBit_eq
  intro i
  simp only [Nat.testBit_and, Nat.testBit_shiftLeft, Nat.testBit_shiftRight,
    Nat.testBit_mod_two_pow, Nat.testBit_two_pow_sub_one]
  by_cases hi : k ≤ i
  · have hindex : k + (i - k) = i := by omega
    have hlt : i - k < n - k ↔ i < n := by omega
    simp [hi, hindex, hlt, Bool.and_comm]
  · simp [hi]

theorem and_not64_mask {k : ℕ} (h : k ≤ 64) (ha : a < 2 ^ 64) :
    a &&& not64 (2 ^ k - 1) = a / 2 ^ k * 2 ^ k := by
  have hpos := (Nat.one_le_two_pow : 1 ≤ 2 ^ k)
  have hmask : not64 (2 ^ k - 1) = 2 ^ 64 - 2 ^ k := by
    unfold not64
    omega
  rw [hmask, and_mask h, Nat.mod_eq_of_lt ha]

theorem and_bit_eq_zero (a k : ℕ) : a &&& 2 ^ k = 0 ↔ a / 2 ^ k % 2 = 0 := by
  rw [Nat.and_two_pow, Nat.testBit_eq_decide_div_mod_eq]
  by_cases h : a / 2 ^ k % 2 = 1
  · simp [h]
  · simp [Nat.mod_two_ne_one.mp h]

/-- An or of numbers without a common bit. -/
theorem or_eq_add {k : ℕ} (h : b < 2 ^ k) (hdvd : 2 ^ k ∣ a) : a ||| b = a + b := by
  obtain ⟨c, rfl⟩ := hdvd
  exact (Nat.two_pow_add_eq_or_of_lt h c).symm

theorem toInt64_eq (h : a < 2 ^ 63) : toInt64 a = a := if_pos h

theorem checkInt64_eq {v : ℤ} (h : -2 ^ 63 ≤ v) (h' : v ≤ int64Max) : checkInt64 v = some v :=
  if_pos ⟨h, h'⟩

theorem checkInt64_of_lt {v : ℤ} (h : -2 ^ 63 ≤ v) (h' : v < 2 ^ 63) : checkInt64 v = some v :=
  checkInt64_eq h (Int.le_sub_one_of_lt h')

theorem checkInt32_natCast {n : ℕ} (h : n < 2 ^ 31) : checkInt32 n = some (n : ℤ) :=
  if_pos ⟨by omega, by unfold int32Max; omega⟩

theorem checkInt64_eq_none {v : ℤ} (h : int64Max < v) : checkInt64 v = none :=
  if_neg fun hv => absurd hv.2 (Int.not_le.mpr h)

theorem checkInt64_some {v w : ℤ} (h : checkInt64 v = some w) : w = v := by
  by_cases hv : -2 ^ 63 ≤ v ∧ v ≤ int64Max
  · exact (Option.some.inj ((checkInt64_eq hv.1 hv.2).symm.trans h)).symm
  · rw [checkInt64, if_neg hv] at h
    cases h

end JsOs.MachineWords

import Mathlib.Data.Nat.Digits.Lemmas

/-!
# Numerals

The digits of a number with the most significant first, and the number that a list of digits
stands for. Zero has no digits.
-/

namespace JsOs.Numerals

variable {base n d : ℕ}

def numeral (base n : ℕ) : List ℕ := (Nat.digits base n).reverse

def numeralValue (base : ℕ) (digits : List ℕ) : ℕ := digits.foldl (fun n d => n * base + d) 0

@[simp] theorem numeral_zero (base : ℕ) : numeral base 0 = [] := by simp [numeral]

theorem numeral_ne_nil (h : n ≠ 0) : numeral base n ≠ [] := by
  simp [numeral, Nat.digits_ne_nil_iff_ne_zero.mpr h]

theorem numeralValue_eq (base : ℕ) (ds : List ℕ) :
    numeralValue base ds = Nat.ofDigits base ds.reverse := by
  rw [Nat.ofDigits_eq_foldr, List.foldr_reverse]
  unfold numeralValue
  congr 1
  funext n d
  simp [Nat.add_comm, Nat.mul_comm]

theorem numeralValue_numeral (base n : ℕ) : numeralValue base (numeral base n) = n := by
  rw [numeralValue_eq, numeral, List.reverse_reverse, Nat.ofDigits_digits]

theorem lt_of_mem_numeral (hb : 1 < base) (h : d ∈ numeral base n) : d < base :=
  Nat.digits_lt_base hb (List.mem_reverse.mp h)

theorem numeral_head_ne_zero (h : (numeral base n).head? = some d) : d ≠ 0 := by
  unfold numeral at h
  rw [List.head?_reverse] at h
  have hn : n ≠ 0 := by
    rintro rfl
    simp at h
  have hlast := Nat.getLast_digit_ne_zero base hn
  rw [List.getLast?_eq_some_getLast (Nat.digits_ne_nil_iff_ne_zero.mpr hn), Option.some.injEq] at h
  rwa [← h]

theorem numeral_length_le {k : ℕ} (hb : 1 < base) (h : n < base ^ k) :
    (numeral base n).length ≤ k := by
  unfold numeral
  rw [List.length_reverse]
  exact (Nat.digits_length_le_iff hb n).mpr h

/-- Digits without a leading zero are the numeral of the number that they stand for. -/
theorem numeral_numeralValue {ds : List ℕ} (hb : 1 < base) (hdigits : ∀ d ∈ ds, d < base)
    (hhead : ds.head? ≠ some 0) : numeral base (numeralValue base ds) = ds := by
  rw [numeralValue_eq, numeral, Nat.digits_ofDigits base hb, List.reverse_reverse]
  · intro d hd
    exact hdigits d (List.mem_reverse.mp hd)
  · intro hne hlast
    apply hhead
    rw [← List.getLast?_reverse, List.getLast?_eq_some_getLast hne, hlast]

/-- The digits that are written: zero has one. -/
def writtenDigits (base n : ℕ) : List ℕ := if n = 0 then [0] else numeral base n

@[simp] theorem writtenDigits_zero (base : ℕ) : writtenDigits base 0 = [0] := rfl

theorem writtenDigits_of_ne (h : n ≠ 0) : writtenDigits base n = numeral base n := if_neg h

theorem writtenDigits_ne_nil (base n : ℕ) : writtenDigits base n ≠ [] := by
  unfold writtenDigits
  split_ifs with h
  · exact List.cons_ne_nil 0 []
  · exact numeral_ne_nil h

theorem lt_of_mem_writtenDigits (hb : 1 < base) (h : d ∈ writtenDigits base n) : d < base := by
  unfold writtenDigits at h
  split_ifs at h with hn
  · rw [List.mem_singleton.mp h]
    exact Nat.zero_lt_of_lt hb
  · exact lt_of_mem_numeral hb h

@[simp] theorem numeralValue_writtenDigits (base n : ℕ) :
    numeralValue base (writtenDigits base n) = n := by
  unfold writtenDigits
  split_ifs with h
  · rw [h]
    exact Nat.zero_mul base
  · exact numeralValue_numeral base n

theorem eq_zero_of_writtenDigits_head (h : (writtenDigits base n).head? = some 0) : n = 0 := by
  by_contra hn
  rw [writtenDigits_of_ne hn] at h
  exact numeral_head_ne_zero h rfl

/-- There is no other way to write a number, but for leading zeros. -/
theorem writtenDigits_numeralValue {ds : List ℕ} (hb : 1 < base) (hdigits : ∀ d ∈ ds, d < base)
    (hne : ds ≠ []) (hhead : ds.head? = some 0 → ds = [0]) :
    writtenDigits base (numeralValue base ds) = ds := by
  by_cases hzero : ds.head? = some 0
  · rw [hhead hzero]
    simp [numeralValue]
  · have hnumeral := numeral_numeralValue hb hdigits hzero
    have hvalue : numeralValue base ds ≠ 0 := by
      intro h
      rw [h, numeral_zero] at hnumeral
      exact hne hnumeral.symm
    rw [writtenDigits_of_ne hvalue, hnumeral]

theorem writtenDigits_length_le {k : ℕ} (hb : 1 < base) (h : n < base ^ (k + 1)) :
    (writtenDigits base n).length ≤ k + 1 := by
  unfold writtenDigits
  split_ifs
  · exact Nat.le_add_left 1 k
  · exact numeral_length_le hb h

end JsOs.Numerals

import Mathlib.Algebra.Order.Ring.Int
import Mathlib.Data.List.Lex

/-!
# Comparisons by a key

A comparison function gives an integer whose sign is that of the comparison of two keys. It may be
undefined; one that is a comparison by a key never is, and it is a total preorder.
-/

namespace JsOs.KeyedComparisons

variable {α β : Type*} [LinearOrder β]

/-- The sign of `r` is that of the comparison of `x` and `y`. -/
structure Agrees (r : ℤ) (x y : β) : Prop where
  neg : r < 0 ↔ x < y
  zero : r = 0 ↔ x = y
  pos : 0 < r ↔ y < x

/-- The comparison function compares keys. -/
def Orders (key : α → β) (compare : α → α → Option ℤ) : Prop :=
  ∀ a b, ∃ r, compare a b = some r ∧ Agrees r (key a) (key b)

/-- The result is not positive. -/
def AtMost (compare : α → α → Option ℤ) (a b : α) : Prop := ∃ r, compare a b = some r ∧ r ≤ 0

/-- The result is positive. -/
def Exceeds (compare : α → α → Option ℤ) (a b : α) : Prop := ∃ r, compare a b = some r ∧ 0 < r

namespace Agrees

theorem of_lt {r : ℤ} {x y : β} (hr : r < 0) (h : x < y) : Agrees r x y where
  neg := ⟨fun _ => h, fun _ => hr⟩
  zero := ⟨fun hz => absurd hz hr.ne, fun he => absurd he h.ne⟩
  pos := ⟨fun hp => absurd hp hr.not_gt, fun hg => absurd hg h.not_gt⟩

theorem of_gt {r : ℤ} {x y : β} (hr : 0 < r) (h : y < x) : Agrees r x y where
  neg := ⟨fun hn => absurd hn hr.not_gt, fun hl => absurd hl h.not_gt⟩
  zero := ⟨fun hz => absurd hz hr.ne', fun he => absurd he h.ne'⟩
  pos := ⟨fun _ => h, fun _ => hr⟩

theorem refl (x : β) : Agrees 0 x x where
  neg := iff_of_false (lt_irrefl 0) (lt_irrefl x)
  zero := iff_of_true rfl rfl
  pos := iff_of_false (lt_irrefl 0) (lt_irrefl x)

variable {r : ℤ} {x y : β} {l m : List β}

theorem nil_cons (hr : r < 0) : Agrees r [] (y :: m) := of_lt hr List.Lex.nil

theorem cons_nil (hr : 0 < r) : Agrees r (x :: l) [] := of_gt hr List.Lex.nil

/-- The first elements decide if they differ. -/
theorem cons_ne (h : Agrees r x y) (hne : x ≠ y) : Agrees r (x :: l) (y :: m) := by
  rcases lt_or_gt_of_ne hne with hlt | hgt
  · exact of_lt (h.neg.mpr hlt) (List.Lex.rel hlt)
  · exact of_gt (h.pos.mpr hgt) (List.Lex.rel hgt)

/-- Otherwise the rest decides. -/
theorem cons (h : Agrees r l m) (x : β) : Agrees r (x :: l) (x :: m) := by
  rcases lt_trichotomy l m with hlt | rfl | hgt
  · exact of_lt (h.neg.mpr hlt) (List.Lex.cons hlt)
  · rw [h.zero.mpr rfl]
    exact refl _
  · exact of_gt (h.pos.mpr hgt) (List.Lex.cons hgt)

end Agrees

/-- Only the sign matters. -/
theorem Agrees.congr {r r' : ℤ} {x y : β} (h : Agrees r x y) (hneg : r' < 0 ↔ r < 0)
    (hpos : 0 < r' ↔ 0 < r) : Agrees r' x y where
  neg := hneg.trans h.neg
  zero := by
    rw [← h.zero]
    omega
  pos := hpos.trans h.pos

theorem agrees_sub (x y : ℕ) : Agrees ((x : ℤ) - y) x y := by
  constructor <;> omega

namespace Orders

variable {key : α → β} {compare : α → α → Option ℤ}

theorem atMost_iff (h : Orders key compare) (a b : α) :
    AtMost compare a b ↔ key a ≤ key b := by
  obtain ⟨r, hr, hagrees⟩ := h a b
  constructor
  · rintro ⟨r', hr', hle⟩
    obtain rfl : r = r' := Option.some.inj (hr.symm.trans hr')
    exact not_lt.mp fun hlt => absurd (hagrees.pos.mpr hlt) hle.not_gt
  · intro hle
    exact ⟨r, hr, not_lt.mp fun hpos => absurd (hagrees.pos.mp hpos) hle.not_gt⟩

theorem exceeds_iff (h : Orders key compare) (a b : α) : Exceeds compare a b ↔ key b < key a := by
  obtain ⟨r, hr, hagrees⟩ := h a b
  rw [← hagrees.pos]
  constructor
  · rintro ⟨r', hr', hpos⟩
    obtain rfl : r = r' := Option.some.inj (hr.symm.trans hr')
    exact hpos
  · exact fun hpos => ⟨r, hr, hpos⟩

theorem eq_zero_iff (h : Orders key compare) (a b : α) :
    compare a b = some 0 ↔ key a = key b := by
  obtain ⟨r, hr, hagrees⟩ := h a b
  rw [hr, Option.some.injEq, hagrees.zero]

theorem isPreorder (h : Orders key compare) : IsPreorder α (AtMost compare) where
  refl a := (h.atMost_iff a a).mpr (le_refl _)
  trans a b c hab hbc :=
    (h.atMost_iff a c).mpr (((h.atMost_iff a b).mp hab).trans ((h.atMost_iff b c).mp hbc))

theorem total (h : Orders key compare) : Std.Total (AtMost compare) where
  total a b := (le_total (key a) (key b)).imp (h.atMost_iff a b).mpr (h.atMost_iff b a).mpr

end Orders

end JsOs.KeyedComparisons

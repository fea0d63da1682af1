import Mathlib.Data.Nat.Bitwise

/-!
# Bit fields

A field is a range of bits of a number. Numbers put together from fields that do not overlap have
the parts as their fields, and a number without bits beside its fields is determined by them.
-/

namespace JsOs.BitFields

structure Field where
  shift : ℕ
  size : ℕ
  deriving DecidableEq, Repr

namespace Field

def get (f : Field) (v : ℕ) : ℕ := v / 2 ^ f.shift % 2 ^ f.size

def put (f : Field) (k : ℕ) : ℕ := k * 2 ^ f.shift

def Apart (f g : Field) : Prop := f.shift + f.size ≤ g.shift ∨ g.shift + g.size ≤ f.shift

instance (f g : Field) : Decidable (f.Apart g) := inferInstanceAs (Decidable (_ ∨ _))

variable {f g : Field} {k v w i : ℕ}

theorem Apart.symm (h : f.Apart g) : g.Apart f := Or.symm h

theorem get_lt (f : Field) (v : ℕ) : f.get v < 2 ^ f.size := Nat.mod_lt _ (Nat.two_pow_pos _)

@[simp] theorem get_or (f : Field) (v w : ℕ) : f.get (v ||| w) = f.get v ||| f.get w := by
  rw [get, Nat.or_div_two_pow, Nat.or_mod_two_pow, get, get]

theorem get_put (hk : k < 2 ^ f.size) : f.get (f.put k) = k := by
  rw [get, put, Nat.mul_div_cancel _ (Nat.two_pow_pos _), Nat.mod_eq_of_lt hk]

theorem get_put_of_apart (h : f.Apart g) (hk : k < 2 ^ g.size) : f.get (g.put k) = 0 := by
  rcases h with h | h
  · -- the part lies above the field
    obtain ⟨e, he⟩ := Nat.exists_eq_add_of_le h
    have hpow : 2 ^ g.shift = 2 ^ e * 2 ^ f.size * 2 ^ f.shift := by
      rw [← pow_add, ← pow_add]
      congr 1
      omega
    rw [get, put, hpow, ← Nat.mul_assoc, Nat.mul_div_cancel _ (Nat.two_pow_pos _),
      ← Nat.mul_assoc, Nat.mul_mod_left]
  · have hlt : g.put k < 2 ^ f.shift := calc
      k * 2 ^ g.shift < 2 ^ g.size * 2 ^ g.shift := Nat.mul_lt_mul_of_pos_right hk (Nat.two_pow_pos _)
      _ = 2 ^ (g.shift + g.size) := by rw [← pow_add, Nat.add_comm]
      _ ≤ 2 ^ f.shift := Nat.pow_le_pow_right (by decide) h
    rw [get, Nat.div_eq_of_lt hlt, Nat.zero_mod]

theorem testBit_get (f : Field) (v i : ℕ) :
    (f.get v).testBit i = (decide (i < f.size) && v.testBit (f.shift + i)) := by
  rw [get, Nat.testBit_mod_two_pow, Nat.testBit_div_two_pow, Nat.add_comm]

theorem testBit_put (hk : k < 2 ^ f.size) (h : (f.put k).testBit i = true) :
    f.shift ≤ i ∧ i < f.shift + f.size := by
  rw [put, ← Nat.shiftLeft_eq, Nat.testBit_shiftLeft, Bool.and_eq_true, decide_eq_true_eq] at h
  refine ⟨h.1, ?_⟩
  by_contra hout
  have hzero := Nat.testBit_lt_two_pow (hk.trans_le (Nat.pow_le_pow_right (by decide)
    (show f.size ≤ i - f.shift by omega)))
  rw [hzero] at h
  exact absurd h.2 (by decide)

end Field

/-- No bit beside the fields is set. -/
def Within (fs : List Field) (v : ℕ) : Prop :=
  ∀ i, v.testBit i = true → ∃ f ∈ fs, f.shift ≤ i ∧ i < f.shift + f.size

variable {fs : List Field} {f : Field} {k v w : ℕ}

theorem Within.or (h : Within fs v) (h' : Within fs w) : Within fs (v ||| w) := by
  intro i hi
  rw [Nat.testBit_or, Bool.or_eq_true] at hi
  exact hi.elim (h i) (h' i)

theorem within_put (hf : f ∈ fs) (hk : k < 2 ^ f.size) : Within fs (f.put k) :=
  fun _ hi => ⟨f, hf, Field.testBit_put hk hi⟩

private theorem testBit_le (hv : Within fs v) (h : ∀ f ∈ fs, f.get v = f.get w) {i : ℕ}
    (hi : v.testBit i = true) : w.testBit i = true := by
  obtain ⟨f, hf, hle, hlt⟩ := hv i hi
  obtain ⟨j, rfl⟩ := Nat.exists_eq_add_of_le hle
  have hbit := congrArg (fun u => u.testBit j) (h f hf)
  simp only [Field.testBit_get, hi, decide_eq_true (show j < f.size by omega)] at hbit
  simpa using hbit.symm

/-- The fields determine the number. -/
theorem Within.eq_of_get (hv : Within fs v) (hw : Within fs w)
    (h : ∀ f ∈ fs, f.get v = f.get w) : v = w := by
  refine Nat.eq_of_testBit_eq fun i => Bool.eq_iff_iff.mpr ⟨testBit_le hv h, ?_⟩
  exact testBit_le hw fun f hf => (h f hf).symm

end JsOs.BitFields

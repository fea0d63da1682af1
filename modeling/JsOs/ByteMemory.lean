import JsOs.CountedLoops
import Mathlib.Logic.Function.Basic
import Mathlib.Tactic.Ring
import Mathlib.Data.List.OfFn

/-!
# Byte-addressed memory

A memory is a total map from addresses to bytes. `load` and `store` move little-endian numbers
of any width; the three rules that the rest of the development uses are that a load sees the
store at its own place, that it does not see a store elsewhere, and that it depends on nothing
but the bytes it reads. `memset` and `memcpy` are the byte loops over such a memory.
-/

namespace JsOs.ByteMemory

open CountedLoops

abbrev Memory := ℕ → UInt8

/-- The little-endian number in the `n` bytes at `a`. -/
def load (m : Memory) (a : ℕ) : ℕ → ℕ
  | 0 => 0
  | n + 1 => (m a).toNat + 256 * load m (a + 1) n

/-- Write the low `n` bytes of `v` at `a`, least significant byte first. -/
def store (m : Memory) (a n v : ℕ) : Memory := fun x =>
  if a ≤ x ∧ x < a + n then UInt8.ofNat (v / 256 ^ (x - a)) else m x

variable {m m' : Memory} {a b n k v x : ℕ}

theorem load_congr (h : ∀ i, i < n → m' (b + i) = m (a + i)) : load m' b n = load m a n := by
  induction n generalizing a b with
  | zero => rfl
  | succ n ih =>
    have h0 := h 0 (by omega)
    have htail := ih (a := a + 1) (b := b + 1)
      (fun i hi => by simpa [Nat.add_assoc, Nat.add_comm 1] using h (i + 1) (by omega))
    simp only [Nat.add_zero] at h0
    simp only [load, h0, htail]

theorem load_eq_of_unchanged (h : ∀ x, a ≤ x → x < a + n → m' x = m x) :
    load m' a n = load m a n :=
  load_congr fun i hi => h (a + i) (by omega) (by omega)

/-- A load determines the bytes it reads. -/
theorem load_inj (h : load m' b n = load m a n) {i : ℕ} (hi : i < n) : m' (b + i) = m (a + i) := by
  induction n generalizing a b i with
  | zero => omega
  | succ n ih =>
    have hbyte := (m a).toNat_lt
    have hbyte' := (m' b).toNat_lt
    simp only [load] at h
    cases i with
    | zero => exact UInt8.toNat_inj.mp (by simp only [Nat.add_zero]; omega)
    | succ i =>
      have hrest := ih (a := a + 1) (b := b + 1) (by omega) (by omega : i < n)
      simpa only [Nat.add_assoc, Nat.add_comm 1] using hrest

theorem load_lt (m : Memory) (a n : ℕ) : load m a n < 256 ^ n := by
  induction n generalizing a with
  | zero => simp [load]
  | succ n ih =>
    have hb := (m a).toNat_lt
    have ht := ih (a + 1)
    simp only [load, pow_succ]
    omega

theorem load_of_bytes (h : ∀ i, i < n → (m (a + i)).toNat = v / 256 ^ i % 256) :
    load m a n = v % 256 ^ n := by
  induction n generalizing a v with
  | zero => simp [load, Nat.mod_one]
  | succ n ih =>
    have h0 := h 0 (by omega)
    have htail := ih (a := a + 1) (v := v / 256) (fun i hi => by
      have hi' := h (i + 1) (by omega)
      rwa [show a + (i + 1) = a + 1 + i by omega, pow_succ', ← Nat.div_div_eq_div_mul] at hi')
    simp only [Nat.add_zero, pow_zero, Nat.div_one] at h0
    simp only [load, h0, htail, pow_succ', Nat.mod_mul]

theorem store_apply_of_notMem (h : x < a ∨ a + n ≤ x) : store m a n v x = m x := by
  simp only [store, if_neg (show ¬(a ≤ x ∧ x < a + n) by omega)]

@[simp] theorem load_store_same : load (store m a n v) a n = v % 256 ^ n := by
  apply load_of_bytes
  intro i hi
  simp [store, hi]

theorem load_store_of_disjoint (h : a + n ≤ b ∨ b + k ≤ a) :
    load (store m a n v) b k = load m b k :=
  load_eq_of_unchanged fun x h₁ h₂ => store_apply_of_notMem (by omega)

/-- Write one byte. -/
def storeByte (m : Memory) (a : ℕ) (b : UInt8) : Memory := Function.update m a b

@[simp] theorem storeByte_same (m : Memory) (a : ℕ) (b : UInt8) : storeByte m a b a = b :=
  Function.update_self ..

theorem storeByte_of_ne (h : x ≠ a) (b : UInt8) : storeByte m a b x = m x :=
  Function.update_of_ne h ..

/-- The `n` bytes at `a`. -/
def readBytes (m : Memory) (a n : ℕ) : List UInt8 := List.ofFn fun i : Fin n => m (a + i)

@[simp] theorem readBytes_length : (readBytes m a n).length = n := List.length_ofFn

theorem readBytes_congr (h : ∀ i, i < n → m' (b + i) = m (a + i)) :
    readBytes m' b n = readBytes m a n := by
  unfold readBytes
  congr 1
  funext i
  exact h i i.isLt

theorem readBytes_take (h : k ≤ n) : (readBytes m a n).take k = readBytes m a k := by
  apply List.ext_getElem
  · simp [h]
  · intro i h₁ h₂
    simp [readBytes]

theorem readBytes_set (h : a ≤ k) (v : UInt8) :
    (readBytes m a n).set (k - a) v = readBytes (storeByte m k v) a n := by
  apply List.ext_getElem
  · simp
  · intro i h₁ h₂
    by_cases hi : k - a = i
    · have hk : a + i = k := by omega
      simp [readBytes, hi, hk]
    · have hk : a + i ≠ k := by omega
      rw [List.getElem_set_ne hi]
      simp [readBytes, storeByte_of_ne hk]

theorem readBytes_zero (h : ∀ i, i < n → m (a + i) = 0) :
    readBytes m a n = List.replicate n 0 := by
  apply List.ext_getElem
  · simp
  · intro i h₁ h₂
    simpa [readBytes] using h i (by simpa using h₁)

/-- `memset`: `output[i] = value` for each `i < count`. -/
def memset (m : Memory) (destination : ℕ) (value : UInt8) (count : ℕ) : Memory :=
  forRange 0 count (fun i m => storeByte m (destination + i) value) m

/-- `memcpy`: `output[i] = input[i]` for each `i < count`, in this order. -/
def memcpy (m : Memory) (destination source count : ℕ) : Memory :=
  forRange 0 count (fun i m => storeByte m (destination + i) (m (source + i))) m

theorem memset_apply (m : Memory) (destination : ℕ) (value : UInt8) (count x : ℕ) :
    memset m destination value count x =
      if destination ≤ x ∧ x < destination + count then value else m x := by
  refine forRange_invariant (fun i (t : Memory) => t x =
    if destination ≤ x ∧ x < destination + i then value else m x) (Nat.zero_le _) ?_ ?_
  · simp only [Nat.add_zero, if_neg (show ¬(destination ≤ x ∧ x < destination) by omega)]
  · intro i t _ _ ht
    by_cases hx : x = destination + i
    · simp [hx]
    · rw [storeByte_of_ne hx, ht]
      congr 1
      exact propext ⟨fun h => by omega, fun h => by omega⟩

/-- A forward copy is exact when no source byte is overwritten before it is read. -/
theorem memcpy_apply (m : Memory) {destination source count : ℕ} (x : ℕ)
    (h : source + count ≤ destination ∨ destination ≤ source) :
    memcpy m destination source count x =
      if destination ≤ x ∧ x < destination + count then m (source + (x - destination))
      else m x := by
  suffices hloop : ∀ y, memcpy m destination source count y =
      if destination ≤ y ∧ y < destination + count then m (source + (y - destination)) else m y from
    hloop x
  refine forRange_invariant (fun i (t : Memory) => ∀ y, t y =
    if destination ≤ y ∧ y < destination + i then m (source + (y - destination)) else m y)
    (Nat.zero_le count) ?_ ?_
  · intro y
    simp only [Nat.add_zero, if_neg (show ¬(destination ≤ y ∧ y < destination) by omega)]
  · intro i t _ hi ht y
    by_cases hy : y = destination + i
    · -- the byte read here is still the original one: it lies at or above every written byte
      rw [hy, storeByte_same, ht, if_neg (by omega), if_pos (by omega)]
      simp
    · rw [storeByte_of_ne hy, ht]
      congr 1
      exact propext ⟨fun h => by omega, fun h => by omega⟩

end JsOs.ByteMemory

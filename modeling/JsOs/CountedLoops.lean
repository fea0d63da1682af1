import Mathlib.Order.Basic
import Mathlib.Data.Nat.Init

/-!
# Counted loops

`forRange lo hi body` runs `body` at `lo`, `lo + 1`, ..., `hi - 1`; `forRangeM` is the same
loop for a body that may be undefined. Each has one invariant rule, and every counted loop
proof of the development is an instance of one of the two.
-/

namespace JsOs.CountedLoops

variable {σ : Type*}

/-- Run `body` at `n` consecutive indices, the first of them `lo`. -/
def countUp (body : ℕ → σ → σ) : ℕ → ℕ → σ → σ
  | 0, _, s => s
  | n + 1, lo, s => countUp body n (lo + 1) (body lo s)

/-- `for (i = lo; i < hi; i++) body`. -/
def forRange (lo hi : ℕ) (body : ℕ → σ → σ) (s : σ) : σ := countUp body (hi - lo) lo s

/-- The partial form of `countUp`: `none` as soon as one iteration is undefined. -/
def countUpM (body : ℕ → σ → Option σ) : ℕ → ℕ → σ → Option σ
  | 0, _, s => some s
  | n + 1, lo, s => (body lo s).bind (countUpM body n (lo + 1))

/-- `for (i = lo; i < hi; i++) body` with a body that may be undefined. -/
def forRangeM (lo hi : ℕ) (body : ℕ → σ → Option σ) (s : σ) : Option σ :=
  countUpM body (hi - lo) lo s

private theorem countUp_invariant (I : ℕ → σ → Prop) {body : ℕ → σ → σ} (n lo : ℕ) (s : σ)
    (hs : I lo s) (hbody : ∀ i t, lo ≤ i → i < lo + n → I i t → I (i + 1) (body i t)) :
    I (lo + n) (countUp body n lo s) := by
  induction n generalizing lo s with
  | zero => exact hs
  | succ n ih =>
    have hnext := ih (lo + 1) (body lo s) (hbody lo s (Nat.le_refl lo) (by omega) hs)
      (fun i t h₁ h₂ => hbody i t (by omega) (by omega))
    rwa [show lo + 1 + n = lo + (n + 1) by omega] at hnext

/-- The loop rule: what holds at entry and is carried from each index to the next holds at
exit. -/
theorem forRange_invariant (I : ℕ → σ → Prop) {lo hi : ℕ} {body : ℕ → σ → σ} {s : σ}
    (hle : lo ≤ hi) (hs : I lo s)
    (hbody : ∀ i t, lo ≤ i → i < hi → I i t → I (i + 1) (body i t)) :
    I hi (forRange lo hi body s) := by
  have h := countUp_invariant I (hi - lo) lo s hs
    (fun i t h₁ h₂ => hbody i t h₁ (by omega))
  rwa [Nat.add_sub_of_le hle] at h

private theorem countUpM_invariant (I : ℕ → σ → Prop) {body : ℕ → σ → Option σ} (n lo : ℕ)
    (s : σ) (hs : I lo s)
    (hbody : ∀ i t, lo ≤ i → i < lo + n → I i t → ∃ u, body i t = some u ∧ I (i + 1) u) :
    ∃ t, countUpM body n lo s = some t ∧ I (lo + n) t := by
  induction n generalizing lo s with
  | zero => exact ⟨s, rfl, hs⟩
  | succ n ih =>
    obtain ⟨u, hu, hI⟩ := hbody lo s (Nat.le_refl lo) (by omega) hs
    obtain ⟨t, ht, hlast⟩ := ih (lo + 1) u hI (fun i t h₁ h₂ => hbody i t (by omega) (by omega))
    refine ⟨t, by simp [countUpM, hu, ht], ?_⟩
    rwa [show lo + 1 + n = lo + (n + 1) by omega] at hlast

/-- The loop rule for partial bodies: if every iteration the invariant allows is defined, so is
the loop. -/
theorem forRangeM_invariant (I : ℕ → σ → Prop) {lo hi : ℕ} {body : ℕ → σ → Option σ} {s : σ}
    (hle : lo ≤ hi) (hs : I lo s)
    (hbody : ∀ i t, lo ≤ i → i < hi → I i t → ∃ u, body i t = some u ∧ I (i + 1) u) :
    ∃ t, forRangeM lo hi body s = some t ∧ I hi t := by
  have h := countUpM_invariant I (hi - lo) lo s hs
    (fun i t h₁ h₂ => hbody i t h₁ (by omega))
  rwa [Nat.add_sub_of_le hle] at h

private theorem countUpM_total (I : σ → Prop) {body : ℕ → σ → Option σ} {f : ℕ → σ → σ}
    (n lo : ℕ) (s : σ) (hs : I s)
    (hbody : ∀ i t, lo ≤ i → i < lo + n → I t → body i t = some (f i t) ∧ I (f i t)) :
    countUpM body n lo s = some (countUp f n lo s) := by
  induction n generalizing lo s with
  | zero => rfl
  | succ n ih =>
    obtain ⟨heq, hI⟩ := hbody lo s (Nat.le_refl lo) (by omega) hs
    rw [countUpM, heq, Option.bind_some]
    exact ih (lo + 1) (f lo s) hI fun i t h₁ h₂ => hbody i t (by omega) (by omega)

/-- A loop whose body is defined wherever the invariant holds is a loop with a total body. -/
theorem forRangeM_total (I : σ → Prop) {lo hi : ℕ} {body : ℕ → σ → Option σ} {f : ℕ → σ → σ}
    {s : σ} (hs : I s)
    (hbody : ∀ i t, lo ≤ i → i < hi → I t → body i t = some (f i t) ∧ I (f i t)) :
    forRangeM lo hi body s = some (forRange lo hi f s) :=
  countUpM_total I (hi - lo) lo s hs fun i t h₁ h₂ => hbody i t h₁ (by omega)

/-- `for (i = lo; i <= hi; i++) body` over integers, with a body that may be undefined. -/
def forUpTo (lo hi : ℤ) (body : ℤ → σ → Option σ) : σ → Option σ :=
  forRangeM 0 (hi + 1 - lo).toNat fun i => body (lo + i)

/-- The loop rule for integer ranges; an empty range ends where it begins. -/
theorem forUpTo_invariant (I : ℤ → σ → Prop) {lo hi : ℤ} {body : ℤ → σ → Option σ} {s : σ}
    (hs : I lo s)
    (hbody : ∀ i t, lo ≤ i → i ≤ hi → I i t → ∃ u, body i t = some u ∧ I (i + 1) u) :
    ∃ t, forUpTo lo hi body s = some t ∧ I (max lo (hi + 1)) t := by
  have hstart : I (lo + (0 : ℕ)) s := by rwa [Int.natCast_zero, Int.add_zero]
  obtain ⟨t, ht, hI⟩ := forRangeM_invariant (fun i => I (lo + i))
    (Nat.zero_le (hi + 1 - lo).toNat) hstart fun i t _ hlt hI => by
      have hnext := hbody (lo + i) t (by omega) (by omega) hI
      rwa [Int.add_assoc] at hnext
  refine ⟨t, ht, ?_⟩
  rwa [show lo + ((hi + 1 - lo).toNat : ℤ) = max lo (hi + 1) by omega] at hI

private theorem countUpM_congr {body body' : ℕ → σ → Option σ} (n lo : ℕ)
    (h : ∀ i, lo ≤ i → i < lo + n → body i = body' i) (s : σ) :
    countUpM body n lo s = countUpM body' n lo s := by
  induction n generalizing lo s with
  | zero => rfl
  | succ n ih =>
    unfold countUpM
    rw [h lo (Nat.le_refl lo) (by omega),
      funext (ih (lo + 1) fun i h₁ h₂ => h i (by omega) (by omega))]

/-- Only what the body does in the range counts. -/
theorem forUpTo_congr {lo hi : ℤ} {body body' : ℤ → σ → Option σ}
    (h : ∀ i, lo ≤ i → i ≤ hi → body i = body' i) : forUpTo lo hi body = forUpTo lo hi body' :=
  funext fun s => countUpM_congr _ _ (fun i _ hlt => h (lo + i) (by omega) (by omega)) s

/-- `for (i = n; i != 0; i--) body`. -/
def countDown (body : ℕ → σ → σ) : ℕ → σ → σ
  | 0, s => s
  | n + 1, s => countDown body n (body (n + 1) s)

/-- The loop rule for descending loops. -/
theorem countDown_invariant (I : ℕ → σ → Prop) {body : ℕ → σ → σ} {n : ℕ} {s : σ} (hs : I n s)
    (hbody : ∀ i t, i < n → I (i + 1) t → I i (body (i + 1) t)) : I 0 (countDown body n s) := by
  induction n generalizing s with
  | zero => exact hs
  | succ n ih =>
    have hnext := hbody n s (Nat.lt_succ_self n) hs
    exact ih hnext fun i t hi => hbody i t (Nat.lt_succ_of_lt hi)

/-- `for (i = n; i != 0; i--) body` with a body that may be undefined. -/
def countDownM (body : ℕ → σ → Option σ) : ℕ → σ → Option σ
  | 0, s => some s
  | n + 1, s => (body (n + 1) s).bind (countDownM body n)

/-- The loop rule for descending loops with partial bodies. -/
theorem countDownM_invariant (I : ℕ → σ → Prop) {body : ℕ → σ → Option σ} {n : ℕ} {s : σ}
    (hs : I n s)
    (hbody : ∀ i t, i < n → I (i + 1) t → ∃ u, body (i + 1) t = some u ∧ I i u) :
    ∃ t, countDownM body n s = some t ∧ I 0 t := by
  induction n generalizing s with
  | zero => exact ⟨s, rfl, hs⟩
  | succ n ih =>
    obtain ⟨u, hu, hI⟩ := hbody n s (Nat.lt_succ_self n) hs
    obtain ⟨t, ht, hlast⟩ := ih hI fun i t hi => hbody i t (Nat.lt_succ_of_lt hi)
    exact ⟨t, by simp [countDownM, hu, ht], hlast⟩

section Relations

variable {R : σ → σ → Prop} (hrefl : ∀ s, R s s) (htrans : ∀ s t u, R s t → R t u → R s u)
include hrefl htrans

theorem countUpM_relates {body : ℕ → σ → Option σ} (n lo : ℕ) {s t : σ}
    (hbody : ∀ i s t, body i s = some t → R s t) (h : countUpM body n lo s = some t) : R s t := by
  induction n generalizing lo s with
  | zero => exact Option.some.inj h ▸ hrefl s
  | succ n ih =>
    obtain ⟨u, hu, htail⟩ := Option.bind_eq_some_iff.mp h
    exact htrans s u t (hbody lo s u hu) (ih (lo + 1) htail)

/-- A preorder that relates what each round begins with to what it ends with does so for the
loop. -/
theorem forRangeM_relates {body : ℕ → σ → Option σ} {lo hi : ℕ} {s t : σ}
    (hbody : ∀ i s t, body i s = some t → R s t) (h : forRangeM lo hi body s = some t) : R s t :=
  countUpM_relates hrefl htrans (hi - lo) lo hbody h

theorem forUpTo_relates {body : ℤ → σ → Option σ} {lo hi : ℤ} {s t : σ}
    (hbody : ∀ i s t, body i s = some t → R s t) (h : forUpTo lo hi body s = some t) : R s t :=
  forRangeM_relates hrefl htrans (fun i => hbody (lo + i)) h

end Relations

end JsOs.CountedLoops

import JsOs.ByteMemory

/-!
# `memmove`

The two loops of `memmove`, and that each of them copies the bytes the source held before. The
pointer that is returned is the destination.
-/

namespace JsOs.MemoryMoves

open CountedLoops ByteMemory

/-- `output[i] = input[i]`. -/
def copyByte (m : Memory) (output input i : ℕ) : Memory :=
  storeByte m (output + i) (m (input + i))

def memmove (m : Memory) (destination source count : ℕ) : Memory :=
  if destination < source then
    forRange 0 count (fun i m => copyByte m destination source i) m
  else if destination > source then
    countDown (fun i m => copyByte m destination source (i - 1)) count m
  else m

/-- All the bytes copied at once. -/
def moved (m : Memory) (destination source count : ℕ) : Memory := fun x =>
  if destination ≤ x ∧ x < destination + count then m (source + (x - destination)) else m x

variable {m : Memory} {destination source count : ℕ}

theorem memcpy_moves (h : source + count ≤ destination ∨ destination ≤ source) :
    memcpy m destination source count = moved m destination source count :=
  funext fun x => memcpy_apply m x h

/-- A backward copy is exact when no source byte is overwritten before it is read. -/
theorem countDown_moves (h : source ≤ destination) :
    countDown (fun i m => copyByte m destination source (i - 1)) count m =
      moved m destination source count := by
  funext x
  -- from the index `i` on, the bytes have been copied
  have hloop : ∀ y, countDown (fun i m => copyByte m destination source (i - 1)) count m y =
      if destination + 0 ≤ y ∧ y < destination + count then m (source + (y - destination))
      else m y := by
    refine countDown_invariant (fun i (t : Memory) => ∀ y, t y =
      if destination + i ≤ y ∧ y < destination + count then m (source + (y - destination))
      else m y) (fun y => ?_) fun i t hi ht y => ?_
    · rw [if_neg (by omega)]
    · unfold copyByte
      by_cases hy : y = destination + i
      · -- the byte read here is still the original one: it lies below every written byte
        rw [Nat.add_sub_cancel, hy, storeByte_same, ht, if_neg (by omega), if_pos (by omega),
          Nat.add_sub_cancel_left]
      · rw [Nat.add_sub_cancel, storeByte_of_ne hy, ht]
        congr 1
        exact propext ⟨fun h => by omega, fun h => by omega⟩
  exact hloop x

theorem moved_self : moved m destination destination count = m := by
  funext x
  unfold moved
  by_cases hx : destination ≤ x ∧ x < destination + count
  · rw [if_pos hx, Nat.add_sub_cancel' hx.1]
  · rw [if_neg hx]

/-- `memmove` copies for every overlap, and `memcpy` does the same where the ranges are disjoint or
the destination is not above the source. -/
theorem memmove_moves (m : Memory) (destination source count : ℕ) :
    memmove m destination source count = moved m destination source count ∧
      ((∀ i j, i < count → j < count → destination + i ≠ source + j) ∨ destination ≤ source →
        memcpy m destination source count = memmove m destination source count) := by
  have hmove : memmove m destination source count = moved m destination source count := by
    unfold memmove
    rcases Nat.lt_trichotomy destination source with hlt | rfl | hgt
    · rw [if_pos hlt]
      exact memcpy_moves (Or.inr hlt.le)
    · rw [if_neg (lt_irrefl _), if_neg (lt_irrefl _), moved_self]
    · rw [if_neg hgt.le.not_gt, if_pos hgt]
      exact countDown_moves hgt.le
  refine ⟨hmove, fun h => ?_⟩
  have hsafe : source + count ≤ destination ∨ destination ≤ source := by
    rcases h with hdisjoint | hle
    · by_contra hoverlap
      exact hdisjoint 0 (destination - source) (by omega) (by omega) (by omega)
    · exact Or.inr hle
  rw [memcpy_moves hsafe, hmove]

theorem memmove_moves_forward :
    memmove (fun x => UInt8.ofNat x) 10 12 4 = moved (fun x => UInt8.ofNat x) 10 12 4 ∧
      memcpy (fun x => UInt8.ofNat x) 10 12 4 = memmove (fun x => UInt8.ofNat x) 10 12 4 :=
  ⟨(memmove_moves _ 10 12 4).1, (memmove_moves _ 10 12 4).2 (Or.inr (by decide))⟩

end JsOs.MemoryMoves

import JsOs.HeapStatistics

/-!
# When an allocation fails

`heap_allocate` and `heap_reallocate` return null only where no block can serve the request, and
then have not touched the heap.
-/

namespace JsOs.HeapCompleteness

open MachineWords HeapModel HeapLayout HeapSurgery HeapOperations HeapChanges HeapRuns
open HeapStatistics TransitionRuns

section Blocks

variable {bs ys : List Block} {b : Block} {k n : ℕ}

theorem largestFree_lt_iff (hk : 0 < k) :
    largestFree bs < k ↔ ∀ b ∈ bs, b.free = true → b.size < k := by
  induction bs with
  | nil => simpa [largestFree] using hk
  | cons b bs ih =>
    rw [largestFree_cons, List.forall_mem_cons]
    cases hb : b.free with
    | true => simp only [if_true, max_lt_iff, ih, forall_const]
    | false => simp [ih]

theorem roundedSize_pos (hn : n ≠ 0) : 0 < roundedSize n := by
  have hle := (roundedSize_spec n).2.1
  omega

/-- The first-fit search against the scan of `heap_stats`. -/
theorem chosenBlock_eq_none_iff (bs : List Block) (n : ℕ) :
    chosenBlock bs n = none ↔ n = 0 ∨ sizeMax - 15 < n ∨ largestFree bs < roundedSize n := by
  unfold chosenBlock
  split_ifs with hguard
  · simp only [true_iff]
    rcases hguard with h | h
    · exact Or.inl h
    · exact Or.inr (Or.inl h)
  · obtain ⟨hn, hsmall⟩ := not_or.mp hguard
    rw [List.find?_eq_none, or_iff_right hn, or_iff_right hsmall,
      largestFree_lt_iff (roundedSize_pos hn)]
    simp only [fits, Bool.and_eq_true, decide_eq_true_eq, not_and, not_le]

/-- What the in-place growth test of `heap_reallocate` rejects. -/
theorem growsInto_eq_false_iff : growsInto b k ys = false ↔
    ∀ c ∈ ys.head?, c.free = true → b.size + 32 + c.size < k := by
  cases ys with
  | nil => simp [growsInto]
  | cons c ys => cases hc : c.free <;> simp [growsInto, hc]

end Blocks

variable {h : Heap} {bs xs ys : List Block} {b : Block} {n : ℕ}

theorem heapAllocate_complete (L : Layout h bs) (n : ℕ) : ∃ p h', heapAllocate h n = some (p, h') ∧
    (p = 0 ↔ n = 0 ∨ sizeMax - 15 < n ∨ largestFree bs < roundedSize n) ∧ (p = 0 → h' = h) := by
  rw [heapAllocate_eq L, ← chosenBlock_eq_none_iff]
  cases hd : chosenBlock bs n with
  | none => exact ⟨0, h, rfl, by simp, fun _ => rfl⟩
  | some d => exact ⟨_, _, rfl, by simp, fun h0 => by omega⟩

theorem heapReallocate_complete (A : At h xs b ys) (hused : b.free = false) (hn : n ≠ 0) :
    ∃ p h', heapReallocate h (b.address + 32) n = some (p, h') ∧
      (p = 0 ↔ sizeMax - 15 < n ∨ b.size < roundedSize n ∧
        (∀ c ∈ ys.head?, c.free = true → b.size + 32 + c.size < roundedSize n) ∧
        largestFree (xs ++ b :: ys) < roundedSize n) ∧ (p = 0 → h' = h) := by
  rw [heapReallocate_eq A hused hn, ← growsInto_eq_false_iff]
  split_ifs with hbig hfit hgrow
  · exact ⟨0, h, rfl, by simp [hbig], fun _ => rfl⟩
  · refine ⟨_, _, rfl, iff_of_false (by omega) ?_, fun h0 => by omega⟩
    rintro (hover | ⟨hlt, -⟩)
    · exact hbig hover
    · omega
  · refine ⟨_, _, rfl, iff_of_false (by omega) ?_, fun h0 => by omega⟩
    rintro (hover | ⟨-, hstay, -⟩)
    · exact hbig hover
    · rw [hgrow] at hstay
      cases hstay
  · -- the block has to move, so `heap_allocate` decides
    have hmove := chosenBlock_eq_none_iff (xs ++ b :: ys) n
    rw [or_iff_right hn, or_iff_right hbig] at hmove
    rw [or_iff_right hbig, and_iff_right (not_le.mp hfit),
      and_iff_right (Bool.eq_false_iff.mpr hgrow), ← hmove]
    cases hd : chosenBlock (xs ++ b :: ys) n with
    | none => exact ⟨0, h, rfl, by simp, fun _ => rfl⟩
    | some d => exact ⟨_, _, rfl, by simp, fun h0 => by omega⟩

/-- In every reachable heap, `heap_allocate` returns null exactly for nothing, for sizes that wrap
and for sizes above the largest free block, `heap_reallocate` exactly for sizes that wrap or fit
neither in the block, nor in it and a free next one, nor in any free block. Null leaves the heap
as it was. -/
theorem run_complete (r : Region) {es : List Event} {s : Client} (hrun : Run Step r.start es s) :
    ∃ stats, heapStats s.heap = some stats ∧
      (∀ n, ∃ p h', heapAllocate s.heap n = some (p, h') ∧
        (p = 0 ↔ n = 0 ∨ sizeMax - 15 < n ∨ stats.largestFree < roundedSize n) ∧
        (p = 0 → h' = s.heap)) ∧
      ∀ q n, (s.live q).isSome → n ≠ 0 → ∃ p h', heapReallocate s.heap q n = some (p, h') ∧
        (p = 0 ↔ sizeMax - 15 < n ∨
          s.heap.size (payloadBlock s.heap q) < roundedSize n ∧
          (s.heap.next (payloadBlock s.heap q) ≠ 0 →
            s.heap.free (s.heap.next (payloadBlock s.heap q)) = true →
            s.heap.size (payloadBlock s.heap q) + headerSize +
              s.heap.size (s.heap.next (payloadBlock s.heap q)) < roundedSize n) ∧
          stats.largestFree < roundedSize n) ∧
        (p = 0 → h' = s.heap) := by
  obtain ⟨bs, K⟩ := r.run_holds hrun
  have L := K.wellFormed.layout
  refine ⟨_, heapStats_eq L, heapAllocate_complete L, fun q n hlive hn => ?_⟩
  obtain ⟨b, hb, hused, rfl⟩ := K.live_block hlive
  obtain ⟨xs, ys, rfl⟩ := List.append_of_mem hb
  have A := layout_iff_at.mp L
  have hnext : (∀ c ∈ ys.head?, c.free = true → b.size + 32 + c.size < roundedSize n) ↔
      (s.heap.next b.address ≠ 0 → s.heap.free (s.heap.next b.address) = true →
        b.size + headerSize + s.heap.size (s.heap.next b.address) < roundedSize n) := by
    rw [A.next_eq, headerSize_eq]
    cases ys with
    | nil => simp
    | cons c ys =>
      have hpos := A.next.bounds.2.1
      rw [headAddress_cons, A.next.free_eq, A.next.size_eq]
      simp [show c.address ≠ 0 by omega]
  rw [payloadBlock_eq A, A.size_eq, ← hnext]
  exact heapReallocate_complete A hused hn

theorem run_complete_smallRegion : ∃ s,
    Run Step smallRegion.start [(.allocate 64, 4128), (.allocate 32, 4224)] s ∧
    (∃ p h', heapAllocate s.heap 336 = some (p, h') ∧ (p = 0 → h' = s.heap)) ∧
    ∃ p h', heapReallocate s.heap 4128 65 = some (p, h') ∧ (p = 0 → h' = s.heap) := by
  obtain ⟨s, hrun, hlive⟩ := Run.of_nextCall (s := smallRegion.start) (fun s => (s.live 4128).isSome)
    (show (List.foldlM (nextCall Legal call) _ [(.allocate 64, 4128), (.allocate 32, 4224)]).map _ =
      some true by decide +kernel)
  obtain ⟨stats, -, hallocate, hreallocate⟩ := run_complete smallRegion hrun
  obtain ⟨p, h', heq, -, hsame⟩ := hallocate 336
  obtain ⟨p', h'', heq', -, hsame'⟩ := hreallocate 4128 65 hlive (by decide)
  exact ⟨s, hrun, ⟨p, h', heq, hsame⟩, p', h'', heq', hsame'⟩

end JsOs.HeapCompleteness

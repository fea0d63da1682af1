import JsOs.ReleaseOrder

/-!
# Releasing what was just allocated

`heap_release` merges the piece that `split_block` cut off back into the block it was cut from.
Where no two free blocks are adjacent it merges nothing else.
-/

namespace JsOs.AllocateRelease

open MachineWords HeapModel HeapLayout HeapSurgery HeapFrames HeapOperations HeapChanges HeapRuns
open ReleaseOrder

section Pieces

variable {xs ys : List Block} {b : Block} {k : ℕ}

theorem absorbNext_used (h : ∀ c ∈ ys.head?, c.free = false) : absorbNext b ys = b :: ys := by
  rcases absorbNext_cases b ys with ⟨heq, -⟩ | ⟨c, zs, rfl, hc, -⟩
  · exact heq
  · simp [h c rfl] at hc

theorem coalesce_used (h : ∀ a ∈ xs.getLast?, a.free = false) :
    coalesce xs b ys = xs ++ absorbNext b ys := by
  unfold coalesce
  cases ha : xs.getLast? with
  | none => rw [List.getLast?_eq_none_iff.mp ha, List.nil_append]
  | some a => simp [h a ha]

/-- The neighbours of a free block. -/
theorem coalesced_neighbours (hc : Coalesced (xs ++ b :: ys)) (hb : b.free = true) :
    (∀ a ∈ xs.getLast?, a.free = false) ∧ ∀ c ∈ ys.head?, c.free = false := by
  refine ⟨fun a ha => ?_, coalesced_right_used hb hc⟩
  have hleft := (List.isChain_append.mp hc).2.2 a ha b (by simp)
  simpa [hb] using hleft

/-- The pieces of a block, when its head becomes free again. -/
theorem release_splitPieces (hk : k ≤ b.size) (hb : b.free = true)
    (hys : ∀ c ∈ ys.head?, c.free = false) : ∃ c zs,
    splitPieces { b with free := false } k ++ ys = c :: zs ∧ c.address = b.address ∧
      c.free = false ∧ absorbNext { c with free := true } zs = b :: ys := by
  obtain ⟨address, size, free⟩ := b
  obtain rfl : free = true := hb
  unfold splitPieces
  dsimp only at hk ⊢
  split_ifs with hsmall
  · exact ⟨_, ys, rfl, rfl, rfl, absorbNext_used hys⟩
  · have hsize : k + 32 + (size - k - 32) = size := by omega
    exact ⟨_, _, rfl, rfl, rfl, by simp [absorbNext, merged, hsize]⟩

end Pieces

variable {h h' : Heap} {bs : List Block} {n p : ℕ}

/-- Where no two adjacent blocks are free, releasing a pointer that `heap_allocate` has just
returned restores the block list and the statistics. -/
theorem release_allocate (W : WellFormed h bs) (hc : Coalesced bs)
    (halloc : heapAllocate h n = some (p, h')) (hp : p ≠ 0) :
    Layout (heapRelease h' p) bs ∧ heapStats (heapRelease h' p) = heapStats h := by
  rw [heapAllocate_eq W.layout] at halloc
  cases hd : chosenBlock bs n with
  | none =>
    rw [hd] at halloc
    cases halloc
    exact absurd rfl hp
  | some d =>
    rw [hd] at halloc
    obtain ⟨hn, -, hfree, hle, xs, ys, rfl⟩ := chosenBlock_eq_some hd
    have hr := roundedSize_spec n
    have hclaim := claim_wellFormed W hfree hr.1 (by omega) hle
    obtain ⟨hleft, hright⟩ := coalesced_neighbours hc hfree
    obtain ⟨c, zs, hpieces, haddress, hused, habsorb⟩ := release_splitPieces hle hfree hright
    rw [hpieces] at hclaim
    have hrelease := release_wellFormed hclaim hused
    rw [coalesce_used hleft, habsorb, haddress] at hrelease
    cases halloc
    exact ⟨hrelease.layout, heapStats_congr hrelease W⟩

/-- Ninety-six bytes, from the one free block of a fresh heap. -/
theorem release_allocate_smallRegion : ∃ p h',
    heapAllocate smallRegion.start.heap 96 = some (p, h') ∧
      Layout (heapRelease h' p) [smallRegion.block] := by
  have W := smallRegion.start_consistent.wellFormed
  have hpointer : (heapAllocate smallRegion.start.heap 96).map Prod.fst = some 4128 := by
    decide +kernel
  obtain ⟨⟨p, h'⟩, halloc, rfl⟩ := Option.map_eq_some_iff.mp hpointer
  exact ⟨_, h', halloc, (release_allocate W (List.isChain_singleton _) halloc (by decide)).1⟩

end JsOs.AllocateRelease

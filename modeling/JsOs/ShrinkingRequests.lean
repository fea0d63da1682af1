import JsOs.AllocatorBooks

/-!
# `runtime_realloc` to a smaller size

The limit is tested before the heap is asked, for a smaller size as for a larger one. While the
total is within the limit the test lets every such request through, and the block shrinks where it
is. Above the limit it refuses those that would not bring the charge under it.
-/

namespace JsOs.ShrinkingRequests

open ByteMemory MachineWords HeapModel HeapLayout HeapSurgery HeapOperations HeapChanges HeapRuns
open AllocatorBooks TransitionRuns

section Limit

variable {state state' : JSMallocState} {h h' : Heap} {c : SystemCall} {n p r : ℕ}

theorem runtimeMalloc_limit (heq : runtimeMalloc state h n = some (r, state', h')) :
    state'.mallocLimit = state.mallocLimit := by
  unfold runtimeMalloc at heq
  split_ifs at heq
  · cases heq
    rfl
  · obtain ⟨x, -, heq⟩ := Option.map_eq_some_iff.mp heq
    dsimp only at heq
    split_ifs at heq <;> cases heq <;> rfl

theorem runtimeFree_limit (state : JSMallocState) (h : Heap) (p : ℕ) :
    (runtimeFree state h p).1.mallocLimit = state.mallocLimit := by
  by_cases hp : p = 0
  · rw [runtimeFree, if_pos hp]
  · rw [runtimeFree, if_neg hp]
    generalize heapUsableSize h p = usable
    dsimp only
    split_ifs <;> rfl

theorem runtimeRealloc_limit (heq : runtimeRealloc state h p n = some (r, state', h')) :
    state'.mallocLimit = state.mallocLimit := by
  unfold runtimeRealloc at heq
  by_cases hp : p = 0
  · rw [if_pos hp] at heq
    exact runtimeMalloc_limit heq
  rw [if_neg hp] at heq
  by_cases hn : n = 0
  · rw [if_pos hn] at heq
    cases heq
    exact runtimeFree_limit state h p
  rw [if_neg hn] at heq
  generalize heapUsableSize h p = oldSize at heq
  dsimp only at heq
  generalize (if state.mallocSize ≥ oldSize then _ else 0) = baseSize at heq
  split_ifs at heq
  · cases heq
    rfl
  · obtain ⟨x, -, heq⟩ := Option.map_eq_some_iff.mp heq
    split_ifs at heq <;> cases heq <;> rfl

/-- Only a new limit changes the limit. -/
theorem performCall_limit (hfixed : ∀ size, c ≠ .limit size)
    (heq : performCall state h c = some (r, state', h')) :
    state'.mallocLimit = state.mallocLimit := by
  cases c with
  | malloc n => exact runtimeMalloc_limit heq
  | realloc p n => exact runtimeRealloc_limit heq
  | free p =>
    cases heq
    exact runtimeFree_limit state h p
  | other c =>
    obtain ⟨x, -, heq⟩ := Option.map_eq_some_iff.mp heq
    cases heq
    rfl
  | limit n => exact absurd rfl (hfixed n)

theorem run_limit {s t : System} {es : List SystemEvent}
    (hfixed : ∀ e ∈ es, ∀ size, e.1 ≠ .limit size) (hrun : Run System.Step s es t) :
    t.state.mallocLimit = s.state.mallocLimit := by
  induction hrun with
  | nil => rfl
  | cons head _ ih =>
    rw [ih fun e he => hfixed e (List.mem_cons_of_mem _ he)]
    obtain ⟨x, hperform, heq⟩ := Option.map_eq_some_iff.mp head.2
    have hlimit := performCall_limit (hfixed _ List.mem_cons_self) hperform
    rw [← hlimit, ← (Prod.mk.inj heq).2]

end Limit

section Shrinking

variable {h : Heap} {bs : List Block} {b : Block} {n : ℕ}

/-- `heap_reallocate` to a size that the block has already. -/
theorem heapReallocate_shrink (W : WellFormed h bs) (hb : b ∈ bs) (hused : b.free = false)
    (hn : 0 < n) (hle : n ≤ b.size) :
    ∃ h', heapReallocate h (b.address + 32) n = some (b.address + 32, h') ∧
      (∀ i < n, h'.memory (b.address + 32 + i) = h.memory (b.address + 32 + i)) ∧
      heapUsableSize h' (b.address + 32) ≤ b.size := by
  obtain ⟨xs, ys, rfl⟩ := List.append_of_mem hb
  have A := layout_iff_at.mp W.layout
  have hr := roundedSize_spec n
  obtain ⟨-, -, hend, -, -, hlt⟩ := A.bounds
  have hdvd := A.size_dvd
  have hfit : roundedSize n ≤ b.size := by omega
  obtain ⟨bs', C, hkeep, -⟩ := resize_change W hused hr.1 (by omega) hfit
  have hmem : headPiece b (roundedSize n) ∈ bs' :=
    (C.mem_iff (headPiece b (roundedSize n)) hused).mpr (Or.inl rfl)
  have hsize := headPiece_size hfit
  refine ⟨splitBlock h b.address (roundedSize n), ?_, fun i hi => ?_, ?_⟩
  · rw [heapReallocate_eq A hused (by omega), if_neg (by unfold sizeMax; omega), if_pos hfit]
  · exact hkeep _ (by omega) (by omega)
  · have husable := heapUsableSize_of_mem C.wellFormed.layout hmem hused
    exact husable.trans_le hsize.2.2

end Shrinking

variable {s : System} {bs : List Block} {n p : ℕ}

theorem Books.shrink (B : Books s bs) (hp : p ∈ s.owned) (hlimit : s.state.mallocLimit < 2 ^ 64)
    (hn : 0 < n) (hle : n ≤ heapUsableSize s.client.heap p) :
    (s.state.mallocSize + n ≤ s.state.mallocLimit + heapUsableSize s.client.heap p →
      ∃ state h', runtimeRealloc s.state s.client.heap p n = some (p, state, h') ∧
        (∀ i < n, h'.memory (p + i) = s.client.heap.memory (p + i)) ∧
        state.mallocSize ≤ s.state.mallocSize) ∧
    (s.state.mallocLimit + heapUsableSize s.client.heap p < s.state.mallocSize + n →
      runtimeRealloc s.state s.client.heap p n = some (0, s.state, s.client.heap)) := by
  have hnull := B.nonnull hp
  obtain ⟨-, hsize, -, hsize_lt⟩ := B.guards hp
  obtain ⟨b, hb, hused, rfl⟩ := B.consistent.live_block (B.owned_live p hp)
  have husable := B.consistent.usable_eq hb hused
  rw [B.runtimeRealloc_eq hp, runtimeReallocUnguarded, if_neg (show ¬n = 0 by omega)]
  dsimp only
  rw [sub64_eq hsize hsize_lt]
  rw [husable] at hle hsize ⊢
  refine ⟨fun hroom => ?_, fun hover => ?_⟩
  · obtain ⟨h', heq, hkeep, hle'⟩ := heapReallocate_shrink B.consistent.wellFormed hb hused hn hle
    have hguard : ¬(s.state.mallocSize - b.size > s.state.mallocLimit ∨
        n > sub64 s.state.mallocLimit (s.state.mallocSize - b.size)) := by
      rw [sub64_eq (by omega) hlimit]
      omega
    rw [if_neg hguard, heq, Option.map_some, if_neg hnull]
    refine ⟨_, h', rfl, hkeep, ?_⟩
    dsimp only
    rw [add64_eq (by omega)]
    omega
  · have hguard : s.state.mallocSize - b.size > s.state.mallocLimit ∨
        n > sub64 s.state.mallocLimit (s.state.mallocSize - b.size) := by
      by_cases hbase : s.state.mallocSize - b.size > s.state.mallocLimit
      · exact Or.inl hbase
      · rw [sub64_eq (not_lt.mp hbase) hlimit]
        omega
    rw [if_pos hguard]

/-- Under a limit that is not changed, `runtime_realloc` to a size within the block returns the
block, with its bytes, and charges no more than before, if the limit admits what the other blocks
are charged plus that size (as it does while the total is within it); otherwise it returns null
and changes nothing. -/
theorem run_shrink (r : Region) {limit : ℕ} (hlimit : limit < 2 ^ 64) {es : List SystemEvent}
    (hfixed : ∀ e ∈ es, ∀ size, e.1 ≠ .limit size) {s : System}
    (hrun : Run System.Step (System.start r limit) es s) (hp : p ∈ s.owned) (hn : 0 < n)
    (hle : n ≤ heapUsableSize s.client.heap p) :
    (s.state.mallocSize + n ≤ limit + heapUsableSize s.client.heap p →
      ∃ state h', runtimeRealloc s.state s.client.heap p n = some (p, state, h') ∧
        (∀ i < n, h'.memory (p + i) = s.client.heap.memory (p + i)) ∧
        state.mallocSize ≤ s.state.mallocSize) ∧
    (limit + heapUsableSize s.client.heap p < s.state.mallocSize + n →
      runtimeRealloc s.state s.client.heap p n = some (0, s.state, s.client.heap)) := by
  have hsame : s.state.mallocLimit = limit := run_limit hfixed hrun
  obtain ⟨bs, B⟩ := hrun.invariant (fun s => ∃ bs, Books s bs)
    (fun s e t hs hstep => by
      obtain ⟨bs, B⟩ := hs
      obtain ⟨bs', B', -⟩ := B.step hstep
      exact ⟨bs', B'⟩) ⟨_, start_books r limit⟩
  have hshrink := Books.shrink B hp (hsame ▸ hlimit) hn hle
  rwa [hsame] at hshrink

theorem run_shrink_smallRegion : ∃ s : System,
    Run System.Step (System.start smallRegion 64) [(.malloc 20, 4128), (.malloc 5, 4192)] s ∧
      ∃ state h', runtimeRealloc s.state s.client.heap 4128 16 = some (4128, state, h') ∧
        state.mallocSize ≤ 48 := by
  obtain ⟨s, hrun, hview⟩ := Run.of_nextCall (s := System.start smallRegion 64)
    (fun s => (decide (4128 ∈ s.owned), heapUsableSize s.client.heap 4128, s.state.mallocSize))
    (show (List.foldlM (nextCall System.Legal System.call) _
      [(.malloc 20, 4128), (.malloc 5, 4192)]).map _ = some (true, 32, 48) by decide +kernel)
  simp only [Prod.mk.injEq, decide_eq_true_eq] at hview
  obtain ⟨hp, husable, hsize⟩ := hview
  obtain ⟨hreturns, -⟩ := run_shrink smallRegion (n := 16) (by decide) (by simp) hrun hp
    (by decide) (by rw [husable]; decide)
  obtain ⟨state, h', heq, -, hle⟩ := hreturns (by rw [husable, hsize]; decide)
  exact ⟨s, hrun, state, h', heq, hsize ▸ hle⟩

/-- Seventeen bytes within a limit of seventeen are charged as thirty-two. Then the block cannot be
shrunk to eighteen. -/
theorem shrink_refused : ∃ s : System,
    Run System.Step (System.start smallRegion 17) [(.malloc 17, 4128)] s ∧ 4128 ∈ s.owned ∧
      heapUsableSize s.client.heap 4128 = 32 ∧
      (runtimeRealloc s.state s.client.heap 4128 18).map Prod.fst = some 0 := by
  obtain ⟨s, hrun, hview⟩ := Run.of_nextCall (s := System.start smallRegion 17)
    (fun s => (decide (4128 ∈ s.owned), heapUsableSize s.client.heap 4128,
      (runtimeRealloc s.state s.client.heap 4128 18).map Prod.fst))
    (show (List.foldlM (nextCall System.Legal System.call) _ [(.malloc 17, 4128)]).map _ =
      some (true, 32, some 0) by decide +kernel)
  simp only [Prod.mk.injEq, decide_eq_true_eq] at hview
  exact ⟨s, hrun, hview⟩

end JsOs.ShrinkingRequests

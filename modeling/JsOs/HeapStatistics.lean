import JsOs.HeapRuns

/-!
# Well-formed heaps and their statistics

The block list stays well formed in every run, and the walk of `heap_stats` over it accounts for
every byte of the region.
-/

namespace JsOs.HeapStatistics

open ByteMemory MachineWords HeapModel HeapLayout HeapSurgery HeapOperations HeapChanges
open HeapRuns TransitionRuns

def usedBytes (bs : List Block) : ℕ := ((bs.filter fun b => !b.free).map Block.size).sum

def freeBytes (bs : List Block) : ℕ := ((bs.filter fun b => b.free).map Block.size).sum

def largestFree (bs : List Block) : ℕ := ((bs.filter fun b => b.free).map Block.size).foldr max 0

section Sums

variable {a e : ℕ} {b : Block} {bs : List Block}

theorem usedBytes_cons (b : Block) (bs : List Block) :
    usedBytes (b :: bs) = (if b.free then 0 else b.size) + usedBytes bs := by
  cases hb : b.free <;> simp [usedBytes, hb]

theorem freeBytes_cons (b : Block) (bs : List Block) :
    freeBytes (b :: bs) = (if b.free then b.size else 0) + freeBytes bs := by
  cases hb : b.free <;> simp [freeBytes, hb]

theorem largestFree_cons (b : Block) (bs : List Block) :
    largestFree (b :: bs) = if b.free then max b.size (largestFree bs) else largestFree bs := by
  cases hb : b.free <;> simp [largestFree, hb]

/-- Payloads and headers fill the region. -/
theorem Tiles.sum_eq (h : Tiles a e bs) :
    a + usedBytes bs + freeBytes bs + 32 * bs.length = e := by
  induction bs generalizing a with
  | nil => exact h
  | cons b bs ih =>
    have hrest := ih h.2.2.2
    rw [usedBytes_cons, freeBytes_cons, List.length_cons]
    cases b.free <;> simp only [if_true, if_false, Bool.false_eq_true] <;> omega

end Sums

variable {h : Heap} {bs xs ys : List Block}

theorem statsFrom_eq (L : Layout h (xs ++ ys)) {fuel : ℕ} (hfuel : ys.length < fuel)
    {stats : HeapStats} (hused : stats.used + usedBytes ys < 2 ^ 64)
    (hfree : stats.free + freeBytes ys < 2 ^ 64) :
    statsFrom h fuel (headAddress 0 ys) stats = some
      { stats with
        used := stats.used + usedBytes ys
        free := stats.free + freeBytes ys
        largestFree := max stats.largestFree (largestFree ys) } := by
  induction ys generalizing xs fuel stats with
  | nil =>
    obtain ⟨fuel, rfl⟩ := Nat.exists_eq_add_of_lt hfuel
    simp [statsFrom, usedBytes, freeBytes, largestFree]
  | cons b ys ih =>
    obtain ⟨fuel, rfl⟩ : ∃ k, fuel = k + 1 := ⟨fuel - 1, by omega⟩
    have A := layout_iff_at.mp L
    have hpos : ¬b.address = 0 := by
      have := A.bounds.2.1
      omega
    have hnext : h.next b.address = headAddress 0 ys := A.next_eq
    rw [List.append_cons] at L
    rw [usedBytes_cons] at hused
    rw [freeBytes_cons] at hfree
    rw [List.length_cons] at hfuel
    rw [headAddress_cons, statsFrom, if_neg hpos, A.free_eq, A.size_eq, hnext, usedBytes_cons,
      freeBytes_cons, largestFree_cons]
    cases hb : b.free with
    | true =>
      simp only [hb, if_true, Nat.zero_add] at hused hfree ⊢
      rw [add64_eq (show stats.free + b.size < 2 ^ 64 by omega), ih L (by omega)
        (by split_ifs <;> exact hused) (by split_ifs <;> dsimp only <;> omega)]
      split_ifs with hlt
      · simp only [Option.some.injEq, HeapStats.mk.injEq, true_and, and_true]
        omega
      · simp only [Option.some.injEq, HeapStats.mk.injEq, true_and, and_true]
        omega
    | false =>
      simp only [hb, Bool.false_eq_true, if_false, Nat.zero_add] at hused hfree ⊢
      rw [add64_eq (show stats.used + b.size < 2 ^ 64 by omega)]
      have hrest := @ih _ L fuel (by omega) { stats with used := stats.used + b.size }
        (by dsimp only; omega) hfree
      rw [hrest]
      simp only [Nat.add_assoc]

/-- `heap_stats` ends, and its figures are those of the layout. -/
theorem heapStats_eq (L : Layout h bs) : heapStats h = some
    { capacity := h.heapEnd - h.heapBegin
      used := usedBytes bs
      free := freeBytes bs
      largestFree := largestFree bs
      allocations := h.allocationCount } := by
  have hsum := Tiles.sum_eq L.tiles
  have hpos := L.begin_pos
  have hend := L.end_lt
  have hfirst : headAddress 0 bs = h.firstBlock :=
    (L.tiles.headAddress_eq L.nonempty 0).trans L.first_eq.symm
  have hwalk := @statsFrom_eq h [] bs L walkFuel (length_lt_walkFuel L)
    ⟨h.heapEnd - h.heapBegin, 0, 0, 0, h.allocationCount⟩ (by dsimp only; omega) (by dsimp only; omega)
  rw [heapStats, if_neg (by omega), sub64_eq (by omega) hend, ← hfirst, hwalk]
  simp

/-- Every run keeps the block list well formed and no call of it diverges. A size expression
wraps nowhere but in `align_up`, and there the wrapped sum is taken back at once. -/
theorem run_wellFormed (r : Region) {es : List Event} {s : Client} (hrun : Run Step r.start es s) :
    (∃ bs, Layout s.heap bs ∧ ∃ stats, heapStats s.heap = some stats ∧
      stats.used + stats.free + headerSize * bs.length = stats.capacity ∧
      stats.capacity = s.heap.heapEnd - s.heap.heapBegin ∧
      stats.allocations = usedCount bs) ∧
    (∀ c, Legal s c → ∃ result t, call s c = some (result, t)) ∧
    ∀ value, value ≤ sizeMax - (heapAlignment - 1) →
      16 ∣ alignUp value ∧ value ≤ alignUp value ∧ alignUp value < value + 16 ∧
        (add64 value heapAlignment ≠ value + heapAlignment ↔ value = sizeMax - 15) := by
  obtain ⟨bs, K⟩ := r.run_holds hrun
  have L := K.wellFormed.layout
  refine ⟨⟨bs, L, _, heapStats_eq L, ?_, rfl, K.wellFormed.count_eq⟩, fun c hc => ?_,
    fun value hv => ?_⟩
  · have hsum := Tiles.sum_eq L.tiles
    rw [headerSize_eq]
    dsimp only
    omega
  · obtain ⟨result, t, -, hcall, -⟩ := call_effect K.toConsistent hc
    exact ⟨result, t, hcall⟩
  · rw [heapAlignment_eq] at hv ⊢
    have hr := roundedSize_spec value
    rw [alignUp_eq, if_neg (by omega)]
    refine ⟨hr.1, hr.2.1, hr.2.2, ?_⟩
    unfold add64 sizeMax at *
    omega

theorem run_wellFormed_smallRegion : ∃ s,
    Run Step smallRegion.start
      [(.allocate 64, 4128), (.reallocate 4128 16, 4128), (.release 4128, 0)] s ∧
    ∃ bs, Layout s.heap bs := by
  obtain ⟨s, hrun, -⟩ := Run.of_nextCall (s := smallRegion.start) (fun s => s.heap.allocationCount)
    (show (List.foldlM (nextCall Legal call) _ [(.allocate 64, 4128), (.reallocate 4128 16, 4128),
      (.release 4128, 0)]).map _ = some 0 by decide +kernel)
  obtain ⟨⟨bs, L, -⟩, -⟩ := run_wellFormed smallRegion hrun
  exact ⟨s, hrun, bs, L⟩

/-- The call `heap_allocate(SIZE_MAX - 15)` passes the guard of `align_up`, and there
`value + HEAP_ALIGNMENT` is zero. -/
theorem alignUp_sum_wraps : Legal smallRegion.start (.allocate (sizeMax - 15)) ∧
    ¬sizeMax - 15 > sizeMax - (heapAlignment - 1) ∧
    add64 (sizeMax - 15) heapAlignment ≠ sizeMax - 15 + heapAlignment := by
  refine ⟨trivial, ?_, ?_⟩ <;> decide

end JsOs.HeapStatistics

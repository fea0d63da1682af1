import JsOs.HeapFrames

/-!
# The public heap operations on layouts

For each operation of `heap.c`: when it succeeds, which layout it leaves, and which used blocks
it keeps.
-/

namespace JsOs.HeapOperations

open ByteMemory MachineWords HeapModel HeapLayout HeapSurgery HeapFrames

section Pointers

variable {h : Heap} {xs ys bs : List Block} {b : Block}

theorem payloadBlock_eq (A : At h xs b ys) : payloadBlock h (b.address + 32) = b.address := by
  obtain ⟨-, hpos, hend, hbegin, -, -⟩ := A.bounds
  have h₁ := A.begin_pos
  have h₂ := A.size_pos
  simp only [payloadBlock, headerSize_eq, Nat.add_sub_cancel]
  rw [if_neg (by omega), if_neg (by omega), if_neg]
  simp only [A.magic_eq, ne_eq, not_true_eq_false, or_false]
  omega

@[simp] theorem payloadBlock_null (h : Heap) : payloadBlock h 0 = 0 := by simp [payloadBlock]

theorem heapUsableSize_eq (A : At h xs b ys) :
    heapUsableSize h (b.address + 32) = if b.free then 0 else b.size := by
  have hpos := A.bounds.2.1
  have hne : b.address ≠ 0 := by omega
  simp only [heapUsableSize, payloadBlock_eq A, hne, false_or, A.free_eq, A.size_eq]

theorem heapUsableSize_of_mem (L : Layout h bs) (hb : b ∈ bs) (hused : b.free = false) :
    heapUsableSize h (b.address + 32) = b.size := by
  obtain ⟨xs, ys, rfl⟩ := List.append_of_mem hb
  simp [heapUsableSize_eq (layout_iff_at.mp L), hused]

/-- A block takes at least 48 bytes, so no walk runs out of fuel. -/
theorem length_lt_walkFuel (L : Layout h bs) : bs.length < walkFuel := by
  have hlen : ∀ {bs : List Block} {a e : ℕ}, Tiles a e bs → a + 48 * bs.length ≤ e := by
    intro bs
    induction bs with
    | nil =>
      intro a e ht
      simpa [Tiles] using Nat.le_of_eq ht
    | cons b bs ih =>
      intro a e ht
      have := ih ht.2.2.2
      have := ht.2.2.1
      simp only [List.length_cons]
      omega
  have := hlen L.tiles
  have := L.end_lt
  unfold walkFuel
  omega

end Pointers

section Allocate

variable {h : Heap} {xs ys bs : List Block} {b : Block} {k n fuel : ℕ}

/-- `n` rounded up to the alignment. -/
def roundedSize (n : ℕ) : ℕ := (n + 15) / 16 * 16

theorem roundedSize_spec (n : ℕ) : 16 ∣ roundedSize n ∧ n ≤ roundedSize n ∧
    roundedSize n < n + 16 := by
  unfold roundedSize
  omega

theorem alignUp_eq (n : ℕ) : alignUp n = if sizeMax - 15 < n then 0 else roundedSize n := by
  simp only [alignUp, heapAlignment_eq, Nat.add_one_sub_one, gt_iff_lt]
  split_ifs with hbig
  · rfl
  · have hsum : sub64 (add64 n 16) 1 = n + 15 := by
      unfold sizeMax at hbig
      unfold sub64 add64
      omega
    simp [hsum, alignDown, roundedSize]

/-- The test of the first-fit search. -/
def fits (k : ℕ) (b : Block) : Bool := b.free && decide (k ≤ b.size)

/-- The loop body of `heap_allocate` at the block it settles on. -/
def claimBlock (h : Heap) (b : Block) (k : ℕ) : Heap :=
  let h := (splitBlock h b.address k).setFree b.address false
  { h with allocationCount := add64 h.allocationCount 1 }

theorem allocateFrom_skip (A : At h xs b ys) (hb : fits k b = false) :
    allocateFrom h k (fuel + 1) b.address = allocateFrom h k fuel (headAddress 0 ys) := by
  have hpos := A.bounds.2.1
  have hskip : (!h.free b.address || decide (h.size b.address < k)) = true := by
    rw [A.free_eq, A.size_eq]
    cases hf : b.free <;> simp_all [fits]
  rw [allocateFrom, if_neg (by omega), if_pos hskip, A.next_eq]

theorem allocateFrom_take (A : At h xs b ys) (hb : fits k b = true) :
    allocateFrom h k (fuel + 1) b.address = some (b.address + 32, claimBlock h b k) := by
  have hpos := A.bounds.2.1
  have htake : (!h.free b.address || decide (h.size b.address < k)) = false := by
    rw [A.free_eq, A.size_eq]
    simp_all [fits]
  rw [allocateFrom, if_neg (by omega), if_neg (by simp [htake])]
  rfl

/-- The search loop returns the first block that fits. -/
theorem allocateFrom_eq (L : Layout h (xs ++ ys)) (hf : ys.length < fuel) :
    allocateFrom h k fuel (headAddress 0 ys) = some (match ys.find? (fits k) with
      | none => (0, h)
      | some b => (b.address + 32, claimBlock h b k)) := by
  induction ys generalizing xs fuel with
  | nil =>
    obtain ⟨fuel, rfl⟩ : ∃ f, fuel = f + 1 := ⟨fuel - 1, by simp at hf; omega⟩
    simp [allocateFrom]
  | cons b ys ih =>
    obtain ⟨fuel, rfl⟩ : ∃ f, fuel = f + 1 := ⟨fuel - 1, by simp at hf; omega⟩
    have A := layout_iff_at.mp L
    cases hb : fits k b with
    | true => simp [allocateFrom_take A hb, List.find?_cons_of_pos hb]
    | false =>
      rw [headAddress_cons, allocateFrom_skip A hb, List.find?_cons_of_neg (by simp [hb])]
      have L' : Layout h ((xs ++ [b]) ++ ys) := by simpa using L
      exact ih L' (by simp at hf; omega)

/-- The block that `heap_allocate` settles on, if any. -/
def chosenBlock (bs : List Block) (n : ℕ) : Option Block :=
  if n = 0 ∨ sizeMax - 15 < n then none else bs.find? (fits (roundedSize n))

theorem heapAllocate_eq (L : Layout h bs) (n : ℕ) :
    heapAllocate h n = some (match chosenBlock bs n with
      | none => (0, h)
      | some b => (b.address + 32, claimBlock h b (roundedSize n))) := by
  have hfirst : h.firstBlock ≠ 0 := by
    have := L.begin_pos
    rw [L.first_eq]
    omega
  unfold chosenBlock
  by_cases h0 : n = 0
  · simp [heapAllocate, h0]
  simp only [heapAllocate, h0, hfirst, false_or, if_false, alignUp_eq]
  by_cases hbig : sizeMax - 15 < n
  · simp [hbig]
  · have hr := roundedSize_spec n
    simp only [if_neg hbig, if_neg (show ¬roundedSize n = 0 by omega)]
    have hhead : h.firstBlock = headAddress 0 bs := by
      rw [L.first_eq, L.tiles.headAddress_eq L.nonempty]
    rw [hhead]
    have L' : Layout h ([] ++ bs) := L
    exact allocateFrom_eq L' (length_lt_walkFuel L)

theorem chosenBlock_eq_some (hb : chosenBlock bs n = some b) :
    n ≠ 0 ∧ n ≤ sizeMax - 15 ∧ b.free = true ∧ roundedSize n ≤ b.size ∧
      ∃ xs ys, bs = xs ++ b :: ys := by
  unfold chosenBlock at hb
  split_ifs at hb with hcase
  have hfit := List.find?_some hb
  simp only [fits, Bool.and_eq_true, decide_eq_true_eq] at hfit
  obtain ⟨xs, ys, hsplit⟩ := List.append_of_mem (List.mem_of_find?_eq_some hb)
  exact ⟨by omega, by omega, hfit.1, hfit.2, xs, ys, hsplit⟩

/-- The pieces of a free block that becomes used. -/
theorem splitPieces_free (b : Block) (k : ℕ) (f : Bool) : ∃ s rest,
    splitPieces b k = ⟨b.address, s, b.free⟩ :: rest ∧
      splitPieces { b with free := f } k = ⟨b.address, s, f⟩ :: rest := by
  unfold splitPieces
  split_ifs
  · exact ⟨b.size, [], rfl, rfl⟩
  · exact ⟨_, _, rfl, rfl⟩

theorem claimBlock_layout (A : At h xs b ys) (hd : 16 ∣ k) (h16 : 16 ≤ k) (hle : k ≤ b.size) :
    Layout (claimBlock h b k) (xs ++ (splitPieces { b with free := false } k ++ ys)) := by
  obtain ⟨s, rest, h₁, h₂⟩ := splitPieces_free b k false
  have L := splitBlock_layout A hd h16 hle
  rw [h₁, List.cons_append] at L
  have L' := setFree_layout (layout_iff_at.mp L) false
  rw [h₂, List.cons_append]
  exact L'.withCount _

theorem claimBlock_keeps (A : At h xs b ys) (hd : 16 ∣ k) (h16 : 16 ≤ k) (hle : k ≤ b.size) :
    Keeps h (xs ++ b :: ys) (claimBlock h b k)
      (xs ++ (splitPieces { b with free := false } k ++ ys)) {b.address} := by
  obtain ⟨s, rest, h₁, h₂⟩ := splitPieces_free b k false
  have K := splitBlock_keeps A hd h16 hle
  have L := splitBlock_layout A hd h16 hle
  rw [h₁, List.cons_append] at L K
  have KK := K.trans (setFree_keeps (layout_iff_at.mp L) false)
  rw [h₂, List.cons_append]
  simp only [Set.union_self] at KK
  exact KK.withCount _

theorem claimBlock_allocationCount (A : At h xs b ys) (hle : k ≤ b.size) :
    (claimBlock h b k).allocationCount = add64 h.allocationCount 1 := by
  simp only [claimBlock, Heap.setFree, splitBlock_allocationCount A hle]

end Allocate

section Release

variable {h : Heap} {xs ys : List Block} {b : Block}

/-- The layout after the block `b`, now free, has been merged with both neighbours. -/
def coalesce (xs : List Block) (b : Block) (ys : List Block) : List Block :=
  match xs.getLast? with
  | some a => if a.free then xs.dropLast ++ absorbNext a (absorbNext b ys)
    else xs ++ absorbNext b ys
  | none => absorbNext b ys

theorem absorbNext_head (b : Block) (ys : List Block) : ∃ c zs, absorbNext b ys = c :: zs ∧
    c.address = b.address ∧ c.free = b.free ∧ b.size ≤ c.size := by
  rcases absorbNext_cases b ys with ⟨heq, -⟩ | ⟨c, zs, -, -, heq⟩
  · exact ⟨b, ys, heq, rfl, rfl, le_rfl⟩
  · exact ⟨merged b c, zs, heq, rfl, rfl, by simp only [merged]; omega⟩

/-- `heap_release` of a used block: its flag, the counter and the merge with the next block. -/
def freeBlock (h : Heap) (block : ℕ) : Heap :=
  let h := h.setFree block true
  let h := if h.allocationCount ≠ 0 then
      { h with allocationCount := sub64 h.allocationCount 1 } else h
  mergeWithNext h block

theorem freeBlock_spec (A : At h xs b ys) (hcount : h.allocationCount < 2 ^ 64) :
    Layout (freeBlock h b.address) (xs ++ absorbNext { b with free := true } ys) ∧
      Keeps h (xs ++ b :: ys) (freeBlock h b.address)
        (xs ++ absorbNext { b with free := true } ys) {b.address} ∧
      (freeBlock h b.address).allocationCount = h.allocationCount - 1 := by
  let h₁ : Heap := { h.setFree b.address true with allocationCount := h.allocationCount - 1 }
  have heq : freeBlock h b.address = mergeWithNext h₁ b.address := by
    simp only [freeBlock, h₁]
    congr 1
    split_ifs with hzero
    · rw [sub64_eq] <;> simp only [Heap.setFree] at hzero ⊢ <;> omega
    · simp only [Heap.setFree, ne_eq, not_not] at hzero ⊢
      simp [hzero]
  have A₁ : At h₁ xs { b with free := true } ys :=
    layout_iff_at.mp ((setFree_layout A true).withCount _)
  rw [heq]
  have hmerge := mergeWithNext_allocationCount A₁
  refine ⟨mergeWithNext_absorb A₁, ?_, hmerge⟩
  have K := ((setFree_keeps A true).withCount _).trans (mergeWithNext_keeps A₁)
  rwa [Set.union_self] at K

theorem heapRelease_eq (A : At h xs b ys) (hused : b.free = false) :
    heapRelease h (b.address + 32) =
      let h' := freeBlock h b.address
      if h'.previous b.address ≠ 0 ∧ h'.free (h'.previous b.address) = true then
        mergeWithNext h' (h'.previous b.address)
      else h' := by
  have hpos := A.bounds.2.1
  have hguard : ¬(b.address = 0 ∨ h.free b.address = true) := by
    rw [A.free_eq, hused]
    simp only [Bool.false_eq_true, or_false]
    omega
  simp only [heapRelease, payloadBlock_eq A, if_neg hguard]
  rfl

theorem lastAddress_append_singleton (p : ℕ) (xs : List Block) (a : Block) :
    lastAddress p (xs ++ [a]) = a.address := by
  induction xs generalizing p with
  | nil => rfl
  | cons x xs ih => exact ih x.address

theorem heapRelease_spec (A : At h xs b ys) (hused : b.free = false)
    (hcount : h.allocationCount < 2 ^ 64) :
    Layout (heapRelease h (b.address + 32)) (coalesce xs { b with free := true } ys) ∧
      Keeps h (xs ++ b :: ys) (heapRelease h (b.address + 32))
        (coalesce xs { b with free := true } ys) {b.address} ∧
      (∀ u : Block, u.free = false → u.address = b.address →
        u ∉ coalesce xs { b with free := true } ys) ∧
      (heapRelease h (b.address + 32)).allocationCount = h.allocationCount - 1 := by
  obtain ⟨L₁, K₁, hcount₁⟩ := freeBlock_spec A hcount
  obtain ⟨c, zs, habs, hc, hcfree, -⟩ := absorbNext_head { b with free := true } ys
  have A₁ := layout_iff_at.mp (habs ▸ L₁)
  have hfresh : ∀ u : Block, u.free = false → u.address = b.address →
      u ∉ xs ++ absorbNext { b with free := true } ys := by
    intro u hu hub hm
    have := Tiles.eq_of_address L₁.tiles hm (by rw [habs]; simp : c ∈ _) (hub.trans hc.symm)
    simp_all
  have hprev := A₁.previous_eq
  rw [hc] at hprev
  rw [heapRelease_eq A hused]
  simp only [hprev]
  rcases List.eq_nil_or_concat xs with rfl | ⟨us, a, rfl⟩
  · simpa [coalesce] using ⟨L₁, K₁, hfresh, hcount₁⟩
  have hco : coalesce (us.concat a) { b with free := true } ys =
      if a.free then us ++ absorbNext a (absorbNext { b with free := true } ys)
      else us ++ a :: absorbNext { b with free := true } ys := by
    simp [coalesce]
  simp only [List.concat_eq_append, lastAddress_append_singleton, List.append_assoc,
    List.singleton_append] at L₁ K₁ hfresh hco ⊢
  rw [hco]
  rw [habs] at L₁ K₁ hfresh ⊢
  have Aa := layout_iff_at.mp L₁
  have hapos : a.address ≠ 0 := by
    have := Aa.bounds.2.1
    omega
  rw [Aa.free_eq]
  cases hafree : a.free with
  | false =>
    simp only [Bool.false_eq_true, and_false, if_false]
    exact ⟨L₁, K₁, hfresh, hcount₁⟩
  | true =>
    simp only [hapos, ne_eq, not_false_eq_true, and_self, if_true]
    obtain ⟨d, ws, hd, hda, hdfree, -⟩ := absorbNext_head a (c :: zs)
    have La := mergeWithNext_absorb Aa
    have Ka := mergeWithNext_keeps Aa
    -- the merge with the previous block is a surgery on a free block
    have Ka' := Keeps.of_free L₁ La (b := a) (c := d) (by simp) (by simp [hd]) hafree
      (hdfree.trans hafree) hda Ka
    refine ⟨La, by simpa using K₁.trans Ka', fun u hu hub hm => ?_,
      (mergeWithNext_allocationCount Aa).trans hcount₁⟩
    exact hfresh u hu hub ((Ka'.mem_iff u hu (Set.notMem_empty _)).mp hm)

end Release

section Reallocate

variable {h : Heap} {xs ys bs : List Block} {b c d : Block} {n : ℕ}

/-- The in-place growth test of `heap_reallocate`. -/
def growsInto (b : Block) (k : ℕ) : List Block → Bool
  | [] => false
  | c :: _ => c.free && decide (k ≤ b.size + 32 + c.size)

/-- `heap_reallocate` when the block has to move to the free block `d`. -/
def moveBlock (h : Heap) (b d : Block) (n : ℕ) : Heap :=
  let h := claimBlock h d (roundedSize n)
  heapRelease { h with memory := memcpy h.memory (d.address + 32) (b.address + 32) b.size }
    (b.address + 32)

theorem chosenBlock_claimed (L : Layout h bs) (hd : chosenBlock bs n = some d) : ∃ us vs,
    bs = us ++ d :: vs ∧ At h us d vs ∧ d.free = true ∧ roundedSize n ≤ d.size ∧
      Layout (claimBlock h d (roundedSize n))
        (us ++ (splitPieces { d with free := false } (roundedSize n) ++ vs)) ∧
      Keeps h bs (claimBlock h d (roundedSize n))
        (us ++ (splitPieces { d with free := false } (roundedSize n) ++ vs)) {d.address} := by
  obtain ⟨h0, -, hfree, hle, us, vs, rfl⟩ := chosenBlock_eq_some hd
  have A := layout_iff_at.mp L
  have hr := roundedSize_spec n
  exact ⟨us, vs, rfl, A, hfree, hle, claimBlock_layout A hr.1 (by omega) hle,
    claimBlock_keeps A hr.1 (by omega) hle⟩

private theorem move_eq (A : At h xs b ys) (hused : b.free = false)
    (hlt : b.size < roundedSize n) :
    ((heapAllocate h n).map fun (replacement, h) =>
      if replacement = 0 then (0, h)
      else
        let count := if h.size b.address < n then h.size b.address else n
        let h := { h with memory := memcpy h.memory replacement (b.address + 32) count }
        (replacement, heapRelease h (b.address + 32))) =
      some (match chosenBlock (xs ++ b :: ys) n with
        | none => (0, h)
        | some d => (d.address + 32, moveBlock h b d n)) := by
  have L := layout_iff_at.mpr A
  rw [heapAllocate_eq L]
  cases hd : chosenBlock (xs ++ b :: ys) n with
  | none => rfl
  | some d =>
    obtain ⟨us, vs, -, D, hfree, -, L', K⟩ := chosenBlock_claimed L hd
    -- the old block is still in the list, so its size can still be read
    have hne : b.address ∉ ({d.address} : Set ℕ) := by
      intro heq
      have hdm := (chosenBlock_eq_some hd).2.2.2.2
      obtain ⟨us, vs, hsplit⟩ := hdm
      have := Tiles.eq_of_address L.tiles (by simp) (by rw [hsplit]; simp : d ∈ _) heq
      simp_all
    have hb : b ∈ us ++ (splitPieces { d with free := false } (roundedSize n) ++ vs) :=
      (K.mem_iff b hused hne).mpr (by simp)
    obtain ⟨us', vs', hsplit⟩ := List.append_of_mem hb
    have hsize : (claimBlock h d (roundedSize n)).size b.address = b.size :=
      (layout_iff_at.mp (hsplit ▸ L')).size_eq
    have hcount : b.size < n := by
      have hr := roundedSize_spec n
      have hdb := A.size_dvd
      omega
    simp only [Option.map_some, hsize, if_pos hcount, moveBlock]
    rw [if_neg (by omega)]

theorem heapReallocate_eq (A : At h xs b ys) (hused : b.free = false) (h0 : n ≠ 0) :
    heapReallocate h (b.address + 32) n =
      if sizeMax - 15 < n then some (0, h)
      else if roundedSize n ≤ b.size then
        some (b.address + 32, splitBlock h b.address (roundedSize n))
      else if growsInto b (roundedSize n) ys then
        some (b.address + 32,
          splitBlock (mergeWithNext h b.address) b.address (roundedSize n))
      else some (match chosenBlock (xs ++ b :: ys) n with
        | none => (0, h)
        | some d => (d.address + 32, moveBlock h b d n)) := by
  obtain ⟨-, hpos, hend, -, -, hlt⟩ := A.bounds
  have hguard : ¬(b.address = 0 ∨ h.free b.address = true) := by
    rw [A.free_eq, hused]
    simp only [Bool.false_eq_true, or_false]
    omega
  have hr := roundedSize_spec n
  simp only [heapReallocate, show ¬b.address + 32 = 0 by omega, h0, if_false, payloadBlock_eq A,
    if_neg hguard, alignUp_eq]
  by_cases hbig : sizeMax - 15 < n
  · simp [hbig]
  simp only [if_neg hbig, show ¬roundedSize n = 0 by omega, if_false, A.size_eq, ge_iff_le]
  by_cases hfit : roundedSize n ≤ b.size
  · simp [hfit]
  simp only [if_neg hfit, A.next_eq]
  cases ys with
  | nil =>
    simp only [headAddress_nil, ne_eq, not_true_eq_false, false_and, if_false, growsInto,
      Bool.false_eq_true]
    exact move_eq A hused (by omega)
  | cons c zs =>
    have C := A.next
    obtain ⟨-, hcpos, hcend, -⟩ := C.bounds
    have hstart : c.address = b.address + 32 + b.size := A.after.1
    have hnote : h.noteSize (b.size + headerSize + c.size) = h :=
      noteSize_eq (by omega) (by simp only [headerSize_eq]; omega)
    have hsum : add64 (add64 b.size headerSize) c.size = b.size + 32 + c.size := by
      rw [headerSize_eq, add64_eq (show b.size + 32 < 2 ^ 64 by omega), add64_eq (by omega)]
    have hne : c.address ≠ 0 := by omega
    simp only [headAddress_cons, C.free_eq, C.size_eq, hnote, hsum, ite_self, hne, ne_eq,
      not_false_eq_true, true_and, growsInto, Bool.and_eq_true, decide_eq_true_eq]
    split_ifs with hgrow
    · rfl
    · exact move_eq A hused (by omega)

end Reallocate

end JsOs.HeapOperations

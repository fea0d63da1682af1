import JsOs.HeapLayout

/-!
# Splitting and merging blocks

What `split_block`, `merge_with_next` and a flag write do to a layout, and which bytes they
touch. Each is first reduced to one explicit memory, then read back as a layout.
-/

namespace JsOs.HeapSurgery

open ByteMemory MachineWords HeapModel HeapLayout

/-- All five fields of a header at once. -/
def writeHeader (m : Memory) (a : ℕ) (v : Header) : Memory :=
  store (store (store (store (store m a 8 v.size) (a + 8) 8 v.previous) (a + 16) 8 v.next)
    (a + 24) 4 v.magic) (a + 28) 1 v.free.toNat

/-- `if (next != NULL) next->previous = block`. -/
def backLink (m : Memory) (next block : ℕ) : Memory :=
  if next ≠ 0 then store m (next + 8) 8 block else m

section Memory

variable {m : Memory} {a b n x : ℕ} {v : Header}

theorem header_writeHeader (hs : v.size < 2 ^ 64) (hp : v.previous < 2 ^ 64)
    (hn : v.next < 2 ^ 64) (hm : v.magic < 2 ^ 32) : header (writeHeader m a v) a = v := by
  rw [writeHeader, header_store_free, header_store_magic hm, header_store_next hn,
    header_store_previous hp, header_store_size hs]

theorem writeHeader_apply (h : x < a ∨ a + 32 ≤ x) : writeHeader m a v x = m x := by
  simp (disch := omega) only [writeHeader, store_apply_of_notMem]

theorem backLink_apply (h : n = 0 ∨ x < n ∨ n + 32 ≤ x) : backLink m n b x = m x := by
  unfold backLink
  split_ifs
  · exact store_apply_of_notMem (by omega)
  · rfl

theorem header_backLink_far (h : n = 0 ∨ a + 32 ≤ n ∨ n + 32 ≤ a) :
    header (backLink m n b) a = header m a :=
  header_congr fun x h₁ h₂ => backLink_apply (by omega)

theorem header_writeHeader_far (h : b + 32 ≤ a ∨ a + 32 ≤ b) :
    header (writeHeader m a v) b = header m b :=
  header_congr fun x h₁ h₂ => writeHeader_apply (by omega)

end Memory

theorem noteSize_eq {h : Heap} {v : ℤ} (h0 : 0 ≤ v) (hv : v < 2 ^ 64) :
    h.noteSize v = h := by
  have hd : decide (0 ≤ v ∧ v < 2 ^ 64) = true := decide_eq_true ⟨h0, hv⟩
  simp only [Heap.noteSize, hd, Bool.not_true, Bool.or_false]

theorem setPrevious_backLink (h : Heap) (n b : ℕ) :
    (if n ≠ 0 then h.setPrevious n b else h) = { h with memory := backLink h.memory n b } := by
  unfold backLink Heap.setPrevious
  split_ifs <;> rfl

theorem heapMagic_lt : heapMagic < 2 ^ 32 := by decide

/-- The neighbourhood of one block of a layout. -/
structure At (h : Heap) (xs : List Block) (b : Block) (ys : List Block) : Prop where
  before : Tiles h.heapBegin b.address xs
  size_dvd : 16 ∣ b.size
  size_pos : 16 ≤ b.size
  after : Tiles (b.address + 32 + b.size) h.heapEnd ys
  links_before : Linked h.memory 0 b.address xs
  header_eq : header h.memory b.address =
    ⟨b.size, lastAddress 0 xs, headAddress 0 ys, heapMagic, b.free⟩
  links_after : Linked h.memory b.address 0 ys
  begin_pos : 0 < h.heapBegin
  begin_aligned : 16 ∣ h.heapBegin
  end_lt : h.heapEnd < 2 ^ 64
  first_eq : h.firstBlock = h.heapBegin
  not_wrapped : h.wrapped = false

theorem layout_iff_at {h : Heap} {xs ys : List Block} {b : Block} :
    Layout h (xs ++ b :: ys) ↔ At h xs b ys := by
  constructor
  · intro L
    obtain ⟨hxs, hd, hs, hys⟩ := L.tiles.middle
    obtain ⟨lxs, lb, lys⟩ := linked_append.mp L.linked
    exact ⟨hxs, hd, hs, hys, lxs, lb, lys, L.begin_pos, L.begin_aligned, L.end_lt, L.first_eq,
      L.not_wrapped⟩
  · intro A
    exact ⟨A.begin_pos, A.begin_aligned, A.end_lt, A.first_eq, by simp,
      tiles_append.mpr ⟨_, A.before, rfl, A.size_dvd, A.size_pos, A.after⟩,
      linked_append.mpr ⟨A.links_before, A.header_eq, A.links_after⟩, A.not_wrapped⟩

namespace At

variable {h : Heap} {xs ys : List Block} {b : Block}

theorem bounds (A : At h xs b ys) : 16 ∣ b.address ∧ 16 ≤ b.address ∧
    b.address + 32 + b.size ≤ h.heapEnd ∧ h.heapBegin ≤ b.address ∧ 16 ∣ h.heapEnd ∧
    h.heapEnd < 2 ^ 64 := by
  have hx := (A.before.aligned A.begin_aligned).1
  have hle := A.before.le
  have hle' := A.after.le
  have hp := A.begin_pos
  have hd := A.begin_aligned
  have hd' := A.size_dvd
  have he := (A.after.aligned (show 16 ∣ b.address + 32 + b.size by omega)).1
  exact ⟨hx, by omega, hle', hle, he, A.end_lt⟩

/-- The successor of a block starts where the block ends. -/
theorem next_cases (A : At h xs b ys) :
    ys = [] ∧ headAddress 0 ys = 0 ∨
      ys ≠ [] ∧ headAddress 0 ys = b.address + 32 + b.size ∧
        b.address + 32 + b.size + 48 ≤ h.heapEnd := by
  cases ys with
  | nil => exact Or.inl ⟨rfl, rfl⟩
  | cons y ys =>
    have hy := A.after.mem (List.mem_cons_self)
    exact Or.inr ⟨by simp, A.after.1, by omega⟩

theorem next_ne_zero (A : At h xs b ys) (hys : ys ≠ []) : headAddress 0 ys ≠ 0 := by
  have hpos := A.bounds.2.1
  rcases A.next_cases with ⟨hnil, -⟩ | ⟨-, hn, -⟩
  · exact absurd hnil hys
  · omega

theorem size_eq (A : At h xs b ys) : h.size b.address = b.size := by simp [Heap.size, A.header_eq]
theorem free_eq (A : At h xs b ys) : h.free b.address = b.free := by simp [Heap.free, A.header_eq]
theorem magic_eq (A : At h xs b ys) : h.magic b.address = heapMagic := by
  simp [Heap.magic, A.header_eq]
theorem next_eq (A : At h xs b ys) : h.next b.address = headAddress 0 ys := by
  simp [Heap.next, A.header_eq]
theorem previous_eq (A : At h xs b ys) : h.previous b.address = lastAddress 0 xs := by
  simp [Heap.previous, A.header_eq]

end At

section Split

variable {h : Heap} {xs ys : List Block} {b : Block} {size : ℕ}

/-- The memory after a block of `b` has been cut off behind `size` payload bytes. -/
def splitMemory (m : Memory) (b : Block) (size next : ℕ) : Memory :=
  let r := b.address + 32 + size
  store (store (backLink (writeHeader m r ⟨b.size - size - 32, b.address, next, heapMagic, true⟩)
    next r) (b.address + 16) 8 r) b.address 8 size

theorem splitBlock_eq (A : At h xs b ys) (hle : size ≤ b.size) :
    splitBlock h b.address size = if b.size < size + 48 then h else
      { h with memory := splitMemory h.memory b size (headAddress 0 ys) } := by
  obtain ⟨hba, hbp, hend, -, -, hlt⟩ := A.bounds
  have hnext := A.next_cases
  have htotal : add64 (add64 size headerSize) heapAlignment = size + 48 := by
    rw [headerSize_eq, heapAlignment_eq, add64_eq (a := size) (by omega), add64_eq (by omega)]
  have hnote : h.noteSize (size + headerSize + heapAlignment) = h :=
    noteSize_eq (by omega) (by simp only [headerSize_eq, heapAlignment_eq]; omega)
  by_cases hsmall : b.size < size + 48
  · simp only [splitBlock, hnote, htotal, A.size_eq, if_pos hsmall]
  have hnote' : h.noteSize (b.size - size - headerSize) = h :=
    noteSize_eq (by simp only [headerSize_eq]; omega) (by simp only [headerSize_eq]; omega)
  simp only [splitBlock, hnote, htotal, A.size_eq, if_neg hsmall, hnote']
  have hmagic := heapMagic_lt
  simp (disch := omega) only [setPrevious_backLink, blockPayload, headerSize_eq, sub64_eq]
  simp (disch := omega) only [Heap.setSize, Heap.setPrevious, Heap.setNext, Heap.setMagic,
    Heap.setFree, Heap.next, header_store_far, A.header_eq, header_store_free,
    header_store_magic, header_store_next]
  rfl

variable {m : Memory} {n x : ℕ}

theorem splitMemory_apply (hb : x < b.address ∨ b.address + 32 ≤ x)
    (hr : x < b.address + 32 + size ∨ b.address + 32 + size + 32 ≤ x)
    (hn : n = 0 ∨ x < n ∨ n + 32 ≤ x) : splitMemory m b size n x = m x := by
  unfold splitMemory
  rw [store_apply_of_notMem (by omega), store_apply_of_notMem (by omega), backLink_apply hn,
    writeHeader_apply hr]

/-- The pieces that `split_block` leaves of `b`. -/
def splitPieces (b : Block) (size : ℕ) : List Block :=
  if b.size < size + 48 then [b]
  else [⟨b.address, size, b.free⟩, ⟨b.address + 32 + size, b.size - size - 32, true⟩]

private theorem split_headers (A : At h xs b ys) (hle : size + 48 ≤ b.size) :
    let r := b.address + 32 + size
    let m := splitMemory h.memory b size (headAddress 0 ys)
    header m b.address = ⟨size, lastAddress 0 xs, r, heapMagic, b.free⟩ ∧
      header m r = ⟨b.size - size - 32, b.address, headAddress 0 ys, heapMagic, true⟩ ∧
      (ys ≠ [] → header m (headAddress 0 ys) =
        { header h.memory (headAddress 0 ys) with previous := r }) := by
  obtain ⟨hba, hbp, hend, -, -, hlt⟩ := A.bounds
  have hnext := A.next_cases
  have hmagic := heapMagic_lt
  refine ⟨?_, ?_, fun hys => ?_⟩
  · rw [splitMemory, header_store_size (by omega), header_store_next (by omega),
      header_backLink_far (by omega), header_writeHeader_far (by omega), A.header_eq]
  · rw [splitMemory, header_store_far (by omega), header_store_far (by omega),
      header_backLink_far (by omega), header_writeHeader] <;> dsimp only <;> omega
  · have hn : headAddress 0 ys ≠ 0 := A.next_ne_zero hys
    rw [splitMemory, header_store_far (by omega), header_store_far (by omega), backLink, if_pos hn,
      header_store_previous (by omega), header_writeHeader_far (by omega)]

/-- `split_block` replaces `b` by its pieces. -/
theorem splitBlock_layout (A : At h xs b ys) (hd : 16 ∣ size) (h16 : 16 ≤ size)
    (hle : size ≤ b.size) :
    Layout (splitBlock h b.address size) (xs ++ (splitPieces b size ++ ys)) := by
  rw [splitBlock_eq A hle, splitPieces]
  split_ifs with hsmall
  · exact layout_iff_at.mpr A
  obtain ⟨hba, hbp, hend, -, -, hlt⟩ := A.bounds
  have hnext := A.next_cases
  have hdb := A.size_dvd
  obtain ⟨hb, hr, hn⟩ := split_headers A (show size + 48 ≤ b.size by omega)
  refine ⟨A.begin_pos, A.begin_aligned, A.end_lt, A.first_eq, by simp, ?_, ?_, A.not_wrapped⟩
  · refine tiles_append.mpr ⟨_, A.before, rfl, hd, h16, rfl,
      by dsimp only; omega, by dsimp only; omega, ?_⟩
    have hsum : b.address + 32 + size + 32 + (b.size - size - 32) = b.address + 32 + b.size := by
      omega
    exact hsum ▸ A.after
  · refine linked_append.mpr ⟨?_, hb, hr, ?_⟩
    · refine A.links_before.congr fun c hc x h₁ h₂ => ?_
      have hcb := A.before.mem hc
      exact splitMemory_apply (by omega) (by omega) (by omega)
    · refine A.links_after.relink fun y ys' hy => ?_
      subst hy
      have hstart := A.after.1
      refine ⟨hn (by simp), fun c hc x h₁ h₂ => ?_⟩
      have hcb := A.after.2.2.2.mem hc
      exact splitMemory_apply (by omega) (by omega) (by simp only [headAddress_cons]; omega)

theorem splitBlock_allocationCount (A : At h xs b ys) (hle : size ≤ b.size) :
    (splitBlock h b.address size).allocationCount = h.allocationCount := by
  rw [splitBlock_eq A hle]
  split_ifs <;> rfl

end Split

section Merge

variable {h : Heap} {xs ys : List Block} {b c : Block}

theorem At.next (A : At h xs b (c :: ys)) : At h (xs ++ [b]) c ys := by
  rw [← layout_iff_at, List.append_assoc]
  exact layout_iff_at.mpr A

/-- The memory after `c`, which follows `b`, has been absorbed. -/
def mergeMemory (m : Memory) (b c : Block) (next : ℕ) : Memory :=
  store (backLink (store (store m b.address 8 (b.size + 32 + c.size)) (b.address + 16) 8 next)
    next b.address) (c.address + 24) 4 0

theorem mergeWithNext_of_used (A : At h xs b ys) (hys : ∀ c ∈ ys.head?, c.free = false) :
    mergeWithNext h b.address = h := by
  unfold mergeWithNext
  rw [A.next_eq]
  cases ys with
  | nil => simp
  | cons c ys => simp [A.next.free_eq, hys c rfl]

theorem mergeWithNext_eq (A : At h xs b (c :: ys)) (hfree : c.free = true) :
    mergeWithNext h b.address =
      { h with memory := mergeMemory h.memory b c (headAddress 0 ys) } := by
  obtain ⟨hba, hbp, hend, -, -, hlt⟩ := A.bounds
  have hstart : c.address = b.address + 32 + b.size := A.after.1
  have C := A.next
  obtain ⟨-, -, hcend, -⟩ := C.bounds
  have hnext := C.next_cases
  have hnote : h.noteSize (b.size + headerSize + c.size) = h :=
    noteSize_eq (by omega) (by simp only [headerSize_eq]; omega)
  have hsum : add64 b.size (add64 headerSize c.size) = b.size + 32 + c.size := by
    rw [headerSize_eq, add64_eq (a := 32) (by omega), add64_eq (by omega)]
    omega
  have hguard : ¬(c.address = 0 ∨ h.free c.address = false ∨ h.magic c.address ≠ heapMagic) := by
    simp only [C.free_eq, C.magic_eq, hfree, Bool.true_eq_false, ne_eq, not_true_eq_false, or_self,
      or_false]
    omega
  simp only [mergeWithNext, A.next_eq, headAddress_cons, if_neg hguard, A.size_eq, C.size_eq,
    hnote, hsum]
  simp (disch := omega) only [setPrevious_backLink, Heap.setSize, Heap.setNext, Heap.setMagic,
    Heap.next, header_store_far, C.header_eq, header_store_next]
  rfl

theorem mergeMemory_apply {m : Memory} {n x : ℕ} (hb : x < b.address ∨ b.address + 32 ≤ x)
    (hc : x < c.address ∨ c.address + 32 ≤ x) (hn : n = 0 ∨ x < n ∨ n + 32 ≤ x) :
    mergeMemory m b c n x = m x := by
  unfold mergeMemory
  rw [store_apply_of_notMem (by omega), backLink_apply hn, store_apply_of_notMem (by omega),
    store_apply_of_notMem (by omega)]

/-- The block that `b` and its right neighbour `c` form together. -/
def merged (b c : Block) : Block := ⟨b.address, b.size + 32 + c.size, b.free⟩

private theorem merge_headers (A : At h xs b (c :: ys)) :
    let m := mergeMemory h.memory b c (headAddress 0 ys)
    header m b.address =
        ⟨b.size + 32 + c.size, lastAddress 0 xs, headAddress 0 ys, heapMagic, b.free⟩ ∧
      (ys ≠ [] → header m (headAddress 0 ys) =
        { header h.memory (headAddress 0 ys) with previous := b.address }) := by
  obtain ⟨hba, hbp, hend, -, -, hlt⟩ := A.bounds
  have hstart : c.address = b.address + 32 + b.size := A.after.1
  obtain ⟨-, -, hcend, -⟩ := A.next.bounds
  have hnext := A.next.next_cases
  refine ⟨?_, fun hys => ?_⟩
  · rw [mergeMemory, header_store_far (by omega), header_backLink_far (by omega),
      header_store_next (by omega), header_store_size (by omega), A.header_eq]
  · have hn : headAddress 0 ys ≠ 0 := A.next.next_ne_zero hys
    rw [mergeMemory, header_store_far (by omega), backLink, if_pos hn,
      header_store_previous (by omega), header_store_far (by omega), header_store_far (by omega)]

/-- `merge_with_next` replaces `b` and a free right neighbour by one block. -/
theorem mergeWithNext_layout (A : At h xs b (c :: ys)) (hfree : c.free = true) :
    Layout (mergeWithNext h b.address) (xs ++ merged b c :: ys) := by
  rw [mergeWithNext_eq A hfree]
  obtain ⟨hba, hbp, hend, -, -, hlt⟩ := A.bounds
  have hstart : c.address = b.address + 32 + b.size := A.after.1
  have C := A.next
  obtain ⟨-, -, hcend, -⟩ := C.bounds
  have hnext := C.next_cases
  have hdb := A.size_dvd
  have hdc := C.size_dvd
  have hcpos := C.size_pos
  obtain ⟨hb, hn⟩ := merge_headers A
  refine ⟨A.begin_pos, A.begin_aligned, A.end_lt, A.first_eq, by simp, ?_, ?_, A.not_wrapped⟩
  · refine tiles_append.mpr ⟨_, A.before, rfl, by dsimp only [merged]; omega,
      by dsimp only [merged]; omega, ?_⟩
    have hsum : b.address + 32 + (b.size + 32 + c.size) = c.address + 32 + c.size := by omega
    exact hsum ▸ C.after
  · refine linked_append.mpr ⟨?_, hb, ?_⟩
    · refine A.links_before.congr fun d hd x h₁ h₂ => ?_
      have hdb := A.before.mem hd
      exact mergeMemory_apply (by omega) (by omega) (by omega)
    · refine C.links_after.relink fun y ys' hy => ?_
      subst hy
      have hys := C.after.1
      refine ⟨hn (by simp), fun d hd x h₁ h₂ => ?_⟩
      have hdb := C.after.2.2.2.mem hd
      exact mergeMemory_apply (by omega) (by omega) (by simp only [headAddress_cons]; omega)

end Merge

section Flag

variable {h : Heap} {xs ys : List Block} {b : Block}

theorem setFree_layout (A : At h xs b ys) (f : Bool) :
    Layout (h.setFree b.address f) (xs ++ { b with free := f } :: ys) := by
  obtain ⟨-, -, hend, -, -, -⟩ := A.bounds
  have hstart := A.after
  have hpos := A.size_pos
  refine ⟨A.begin_pos, A.begin_aligned, A.end_lt, A.first_eq, by simp,
    tiles_append.mpr ⟨_, A.before, rfl, A.size_dvd, A.size_pos, A.after⟩,
    linked_append.mpr ⟨?_, ?_, ?_⟩, A.not_wrapped⟩
  · refine A.links_before.congr fun c hc x h₁ h₂ => ?_
    have hcb := A.before.mem hc
    exact store_apply_of_notMem (by omega)
  · simp only [Heap.setFree, header_store_free, A.header_eq]
  · refine A.links_after.congr fun c hc x h₁ h₂ => ?_
    have hcb := A.after.mem hc
    exact store_apply_of_notMem (by omega)

end Flag

end JsOs.HeapSurgery

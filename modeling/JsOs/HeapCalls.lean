import JsOs.HeapChanges

/-!
# What each heap call returns

`heap_allocate`, `heap_callocate` and `heap_reallocate` either fail and leave the heap as it was,
or return the payload of one used block that the call has put in.
-/

namespace JsOs.HeapCalls

open ByteMemory MachineWords HeapModel HeapLayout HeapSurgery HeapFrames HeapOperations
open HeapChanges

variable {h : Heap} {bs : List Block} {b : Block} {n : ℕ}

/-- A `heap_reallocate` that shrinks in place, splits, and has a free block behind it. -/
def ShrinksBesideFree (h : Heap) (pointer size : ℕ) : Prop :=
  let block := payloadBlock h pointer
  pointer ≠ 0 ∧ alignUp size ≠ 0 ∧ alignUp size + headerSize + heapAlignment ≤ h.size block ∧
    h.next block ≠ 0 ∧ h.free (h.next block) = true

instance (h : Heap) (pointer size : ℕ) : Decidable (ShrinksBesideFree h pointer size) := by
  unfold ShrinksBesideFree
  infer_instance

theorem heapAllocate_cases (W : WellFormed h bs) (n : ℕ) :
    (chosenBlock bs n = none ∧ heapAllocate h n = some (0, h)) ∨
      ∃ h' bs' c, heapAllocate h n = some (c.address + 32, h') ∧
        Change h bs h' bs' none (some c) ∧ c.free = false ∧ n ≤ c.size ∧
        c.size < roundedSize n + 48 ∧ (Coalesced bs → Coalesced bs') := by
  rw [heapAllocate_eq W.layout]
  cases hd : chosenBlock bs n with
  | none => exact Or.inl ⟨rfl, rfl⟩
  | some d =>
    obtain ⟨bs', C, hco⟩ := allocate_change W hd
    have hle := (chosenBlock_eq_some hd).2.2.2.1
    have hr := roundedSize_spec n
    have hsize := headPiece_size (b := { d with free := false }) hle
    dsimp only at hsize
    exact Or.inr ⟨_, bs', headPiece { d with free := false } (roundedSize n), rfl, C, rfl,
      by omega, by omega, hco⟩

private theorem move_change (W : WellFormed h bs) (hb : b ∈ bs) (hused : b.free = false)
    (hlt : b.size < roundedSize n) {d : Block} (hd : chosenBlock bs n = some d) : ∃ bs' c,
    c.address = d.address ∧ Change h bs (moveBlock h b d n) bs' (some b) (some c) ∧
      c.free = false ∧ n ≤ c.size ∧ c.size < roundedSize n + 48 ∧
      (∀ i, i < b.size → (moveBlock h b d n).memory (c.address + 32 + i) =
        h.memory (b.address + 32 + i)) ∧ (Coalesced bs → Coalesced bs') := by
  obtain ⟨bs₁, C₁, hco₁⟩ := allocate_change W hd
  have hle := (chosenBlock_eq_some hd).2.2.2.1
  have hr := roundedSize_spec n
  have hsize := headPiece_size (b := { d with free := false }) hle
  unfold moveBlock
  dsimp only
  generalize claimBlock h d (roundedSize n) = h₁ at *
  generalize hm : memcpy h₁.memory (d.address + 32) (b.address + 32) b.size = m
  let c := headPiece { d with free := false } (roundedSize n)
  change Change h bs h₁ bs₁ none (some c) at C₁
  change roundedSize n ≤ c.size ∧ c.size < roundedSize n + 48 ∧ c.size ≤ d.size at hsize
  have hca : c.address = d.address := rfl
  have hcm : c ∈ bs₁ := (C₁.mem_iff c rfl).mpr (Or.inl rfl)
  have hbm : b ∈ bs₁ := (C₁.mem_iff b hused).mpr (Or.inr ⟨hb, by simp⟩)
  have hbc : b ≠ c := fun heq => C₁.fresh c rfl b hb hused (by simp) (heq ▸ rfl)
  -- the old block and the new one lie apart, so the copy reads nothing it has written
  have hapart := C₁.wellFormed.layout.tiles.disjoint hbm hcm hbc
  have hcopy : ∀ x, m x = if d.address + 32 ≤ x ∧ x < d.address + 32 + b.size then
      h₁.memory (b.address + 32 + (x - (d.address + 32))) else h₁.memory x := by
    intro x
    rw [← hm]
    exact memcpy_apply _ x (by omega)
  have C₂ := C₁.writePayload rfl (m := m) fun x hx => by rw [hcopy, if_neg (by omega)]
  obtain ⟨bs', C₃, hco₃⟩ := release_change C₂.wellFormed hbm hused
  refine ⟨bs', c, hca, C₂.trans_move C₃ hbc, rfl, by omega, by omega, fun i hi => ?_,
    fun hco => hco₃ (hco₁ hco)⟩
  have hkeep := C₃.bytes c hcm rfl (by simpa using hbc) (c.address + 32 + i) (by omega) (by omega)
  refine hkeep.trans ?_
  change m (c.address + 32 + i) = _
  rw [hcopy, if_pos (by omega), hca, Nat.add_sub_cancel_left]
  exact C₁.bytes b hb hused (by simp) _ (by omega) (by omega)

theorem heapReallocate_cases (W : WellFormed h bs) (hb : b ∈ bs) (hused : b.free = false)
    (h0 : n ≠ 0) :
    heapReallocate h (b.address + 32) n = some (0, h) ∨
      ∃ h' bs' c, heapReallocate h (b.address + 32) n = some (c.address + 32, h') ∧
        Change h bs h' bs' (some b) (some c) ∧ c.free = false ∧ n ≤ c.size ∧
        c.size < roundedSize n + 48 ∧
        (∀ i, i < b.size → i < n → h'.memory (c.address + 32 + i) = h.memory (b.address + 32 + i)) ∧
        (¬ShrinksBesideFree h (b.address + 32) n → Coalesced bs → Coalesced bs') := by
  obtain ⟨xs, ys, rfl⟩ := List.append_of_mem hb
  have A := layout_iff_at.mp W.layout
  have hr := roundedSize_spec n
  rw [heapReallocate_eq A hused h0]
  split_ifs with hbig hfit hgrow
  · exact Or.inl rfl
  · obtain ⟨bs', C, hkeep, hco⟩ := resize_change W hused hr.1 (by omega) hfit
    have hsize := headPiece_size hfit
    refine Or.inr ⟨_, bs', headPiece b (roundedSize n), rfl, C, hused, by omega, hsize.2.1,
      fun i hi hin => hkeep _ (by simp only [headPiece]; omega) (by simp only [headPiece]; omega),
      fun hns => hco fun hsmall c hc => ?_⟩
    -- the guard of `ShrinksBesideFree` names the right neighbour of `b`
    obtain ⟨zs, rfl⟩ : ∃ zs, ys = c :: zs := by
      cases ys with
      | nil => simp at hc
      | cons y ys => exact ⟨ys, by simpa using hc⟩
    have hpos := A.next.bounds.2.1
    simp only [ShrinksBesideFree, payloadBlock_eq A, alignUp_eq, if_neg hbig, headerSize_eq,
      heapAlignment_eq, A.size_eq, A.next_eq, headAddress_cons, A.next.free_eq] at hns
    cases hcf : c.free with
    | false => rfl
    | true => exact absurd ⟨by omega, by omega, by omega, by omega, hcf⟩ hns
  · cases ys with
    | nil => simp [growsInto] at hgrow
    | cons c zs =>
      simp only [growsInto, Bool.and_eq_true, decide_eq_true_eq] at hgrow
      obtain ⟨C₁, hkeep₁⟩ := merge_change W hgrow.1
      obtain ⟨bs', C₂, hkeep₂, hco⟩ := resize_change C₁.wellFormed (b := merged b c) hused hr.1
        (by omega) hgrow.2
      have hsize := headPiece_size (b := merged b c) hgrow.2
      refine Or.inr ⟨_, bs', headPiece (merged b c) (roundedSize n), rfl,
        C₁.trans_same C₂ rfl W.layout hb, hused, by omega, hsize.2.1, fun i hi hin => ?_,
        fun _ hcoal => ?_⟩
      · have h₂ := hkeep₂ (b.address + 32 + i) (by simp only [merged]; omega)
          (by simp only [merged]; omega)
        have h₁ := hkeep₁ (b.address + 32 + i) (by omega) (by omega)
        exact h₂.trans h₁
      · obtain ⟨hmerged, hzs⟩ := coalesced_merge hgrow.1 hcoal
        exact hco (fun _ => hzs) hmerged
  · cases hd : chosenBlock (xs ++ b :: ys) n with
    | none => exact Or.inl rfl
    | some d =>
      obtain ⟨bs', c, hcd, C, hcused, hle, hlt, hkeep, hco⟩ :=
        move_change W hb hused (by omega) hd
      exact Or.inr ⟨_, bs', c, by rw [hcd], C, hcused, hle, hlt, fun i hi _ => hkeep i hi,
        fun _ => hco⟩

theorem heapCallocate_cases (W : WellFormed h bs) (count size : ℕ) :
    heapCallocate h count size = some (0, h) ∨
      ∃ h' bs' c, heapCallocate h count size = some (c.address + 32, h') ∧
        Change h bs h' bs' none (some c) ∧ c.free = false ∧ count * size ≤ c.size ∧
        (∀ i, i < count * size → h'.memory (c.address + 32 + i) = 0) ∧
        (Coalesced bs → Coalesced bs') := by
  unfold heapCallocate
  split_ifs with hover
  · exact Or.inl rfl
  -- the division test accepts exactly the products that fit
  have hfit : count * size < 2 ^ 64 := by
    rcases Nat.eq_zero_or_pos count with rfl | hpos
    · simp
    · have hle : size ≤ sizeMax / count := by
        by_contra hlt
        exact hover ⟨by omega, by omega⟩
      have := (Nat.le_div_iff_mul_le hpos).mp hle
      rw [Nat.mul_comm]
      unfold sizeMax at this
      omega
  simp only [mul64_eq hfit]
  rcases heapAllocate_cases W (count * size) with ⟨-, heq⟩ | ⟨h', bs', c, heq, C, hc, hle, -, hco⟩
  · exact Or.inl (by simp [heq])
  · have hset := memset_apply h'.memory (c.address + 32) 0 (count * size)
    refine Or.inr ⟨{ h' with memory := memset h'.memory (c.address + 32) 0 (count * size) }, bs', c,
      by simp [heq], C.writePayload hc fun x hx => ?_, hc, hle, fun i hi => ?_, hco⟩
    · rw [hset, if_neg (by omega)]
    · change memset h'.memory (c.address + 32) 0 (count * size) (c.address + 32 + i) = 0
      rw [hset, if_pos (by omega)]

end JsOs.HeapCalls

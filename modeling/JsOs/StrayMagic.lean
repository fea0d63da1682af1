import JsOs.HeapCoalescing

/-!
# The magic number outside the headers

`payload_block` tells a header by its magic number. Where that number stands nowhere but in the
headers of the list, no operation of the heap puts it anywhere else: what overlaps an old magic
number is the back link of another header, and addresses are multiples of 16.
-/

namespace JsOs.StrayMagic

open ByteMemory MachineWords HeapModel HeapLayout HeapSurgery HeapFrames HeapOperations
open HeapChanges HeapCalls HeapCoalescing

/-- The magic number stands at `w`, which could be its place in a header. -/
def MagicAt (m : Memory) (w : ℕ) : Prop := w % 16 = 8 ∧ load m w 4 = heapMagic

instance (m : Memory) (w : ℕ) : Decidable (MagicAt m w) :=
  inferInstanceAs (Decidable (_ ∧ _))

section Words

variable {m m' : Memory} {a b n v w : ℕ}

theorem load_four_mod (m : Memory) (w : ℕ) : load m w 4 % 256 = (m w).toNat := by
  have hb := (m w).toNat_lt
  simp only [load]
  omega

theorem load_eight_mod (m : Memory) (w : ℕ) : load m w 8 % 256 = (m w).toNat := by
  have hb := (m w).toNat_lt
  simp only [load]
  omega

theorem MagicAt.congr (h : MagicAt m' w) (heq : ∀ x, w ≤ x → x < w + 4 → m' x = m x) :
    MagicAt m w :=
  ⟨h.1, (load_eq_of_unchanged heq).symm.trans h.2⟩

/-- The least byte of the magic number. -/
theorem MagicAt.byte (h : MagicAt m w) : (m w).toNat = 0x53 := by
  rw [← load_four_mod, h.2]
  rfl

theorem MagicAt.of_store (h : MagicAt (store m a n v) w) (hw : w + 4 ≤ a ∨ a + n ≤ w) :
    MagicAt m w :=
  h.congr fun x h₁ h₂ => store_apply_of_notMem (by omega)

/-- A back link is a multiple of 16, which the magic number is not. -/
theorem MagicAt.of_store_previous (h : MagicAt (store m (b + 8) 8 v) w) (hb : 16 ∣ b)
    (hv : 16 ∣ v) : MagicAt m w := by
  have hword := h.1
  by_cases hw : w = b + 8
  · have hbyte := h.byte
    rw [hw, ← load_eight_mod, load_store_same] at hbyte
    omega
  · exact h.of_store (by omega)

theorem MagicAt.of_store_magic (h : MagicAt (store m (b + 24) 4 v) w) (hb : 16 ∣ b) :
    w = b + 24 ∧ v % 2 ^ 32 = heapMagic ∨ w ≠ b + 24 ∧ MagicAt m w := by
  have hword := h.1
  by_cases hw : w = b + 24
  · have hload := h.2
    rw [hw, load_store_same] at hload
    exact .inl ⟨hw, hload⟩
  · exact .inr ⟨hw, h.of_store (by omega)⟩

theorem MagicAt.of_backLink (h : MagicAt (backLink m n b) w) (hn : 16 ∣ n) (hb : 16 ∣ b) :
    MagicAt m w := by
  unfold backLink at h
  split_ifs at h
  · exact h.of_store_previous hn hb
  · exact h

theorem MagicAt.of_writeHeader {v : Header} (h : MagicAt (writeHeader m a v) w) (ha : 16 ∣ a)
    (hv : 16 ∣ v.previous) : w = a + 24 ∨ MagicAt m w := by
  have hword := h.1
  unfold writeHeader at h
  rcases (h.of_store (by omega)).of_store_magic ha with ⟨hw, -⟩ | ⟨-, h⟩
  · exact .inl hw
  · exact .inr (((h.of_store (by omega)).of_store_previous ha hv).of_store (by omega))

end Words

/-- A layout with the magic number in its headers only. -/
structure Tidy (h : Heap) (bs : List Block) : Prop where
  layout : Layout h bs
  strays : ∀ w, h.heapBegin ≤ w → w + 4 ≤ h.heapEnd → MagicAt h.memory w →
    ∃ b ∈ bs, w = b.address + 24

section Surgery

variable {h : Heap} {xs ys bs : List Block} {b c : Block} {k n : ℕ}

theorem Tidy.withCount (T : Tidy h bs) (n : ℕ) : Tidy { h with allocationCount := n } bs :=
  ⟨T.layout.withCount n, T.strays⟩

theorem headAddress_dvd (A : At h xs b ys) : 16 ∣ headAddress 0 ys := by
  obtain ⟨hba, -, -, -, -, -⟩ := A.bounds
  have hbs := A.size_dvd
  rcases A.next_cases with ⟨-, hn⟩ | ⟨-, hn, -⟩ <;> omega

theorem Tidy.split (T : Tidy h (xs ++ b :: ys)) (hd : 16 ∣ k) (h16 : 16 ≤ k) (hle : k ≤ b.size) :
    Tidy (splitBlock h b.address k) (xs ++ (splitPieces b k ++ ys)) := by
  have A := layout_iff_at.mp T.layout
  refine ⟨splitBlock_layout A hd h16 hle, ?_⟩
  rw [splitBlock_eq A hle, splitPieces]
  split_ifs with hsmall
  · exact T.strays
  · intro w h₁ h₂ hw
    have hba := A.bounds.1
    have hr : 16 ∣ b.address + 32 + k := by omega
    have hword := hw.1
    -- the back link of the next block, and the header of the remainder
    have hbefore := ((hw.of_store (by omega)).of_store (by omega)).of_backLink
      (headAddress_dvd A) hr
    rcases hbefore.of_writeHeader hr hba with rfl | hold
    · exact ⟨⟨b.address + 32 + k, b.size - k - 32, true⟩, by simp, rfl⟩
    · obtain ⟨u, hu, heq⟩ := T.strays w h₁ h₂ hold
      simp only [List.mem_append, List.mem_cons] at hu
      rcases hu with hu | rfl | hu
      · exact ⟨u, by simp [hu], heq⟩
      · exact ⟨⟨u.address, k, u.free⟩, by simp, heq⟩
      · exact ⟨u, by simp [hu], heq⟩

theorem Tidy.merge (T : Tidy h (xs ++ b :: ys)) :
    Tidy (mergeWithNext h b.address) (xs ++ absorbNext b ys) := by
  have A := layout_iff_at.mp T.layout
  refine ⟨mergeWithNext_absorb A, ?_⟩
  rcases absorbNext_cases b ys with ⟨heq, hused⟩ | ⟨c, zs, rfl, hc, heq⟩
  · rw [heq, mergeWithNext_of_used A hused]
    exact T.strays
  · rw [heq, mergeWithNext_eq A hc]
    intro w h₁ h₂ hw
    have hba := A.bounds.1
    have hca := A.next.bounds.1
    have hword := hw.1
    -- the magic number of `c` is cleared
    rcases hw.of_store_magic hca with ⟨-, hzero⟩ | ⟨hne, hw⟩
    · exact absurd hzero (by decide)
    · have hold := (((hw.of_backLink (headAddress_dvd A.next) hba).of_store (by omega))).of_store
        (by omega)
      obtain ⟨u, hu, hplace⟩ := T.strays w h₁ h₂ hold
      simp only [List.mem_append, List.mem_cons] at hu
      rcases hu with hu | rfl | rfl | hu
      · exact ⟨u, by simp [hu], hplace⟩
      · exact ⟨merged u c, by simp, hplace⟩
      · exact absurd hplace hne
      · exact ⟨u, by simp [hu], hplace⟩

theorem Tidy.setFree (T : Tidy h (xs ++ b :: ys)) (f : Bool) :
    Tidy (h.setFree b.address f) (xs ++ { b with free := f } :: ys) := by
  have A := layout_iff_at.mp T.layout
  refine ⟨setFree_layout A f, fun w h₁ h₂ hw => ?_⟩
  have hba := A.bounds.1
  have hword := hw.1
  have hold : MagicAt h.memory w := MagicAt.of_store hw (by omega)
  obtain ⟨u, hu, heq⟩ := T.strays w h₁ h₂ hold
  simp only [List.mem_append, List.mem_cons] at hu
  rcases hu with hu | rfl | hu
  · exact ⟨u, by simp [hu], heq⟩
  · exact ⟨{ u with free := f }, by simp, heq⟩
  · exact ⟨u, by simp [hu], heq⟩

/-- Bytes of a used block may be changed as long as they do not form the magic number. -/
theorem Tidy.writePayload (T : Tidy h bs) {m : Memory} (L : Layout { h with memory := m } bs)
    (hm : ∀ w, MagicAt m w → MagicAt h.memory w) : Tidy { h with memory := m } bs :=
  ⟨L, fun w h₁ h₂ hw => T.strays w h₁ h₂ (hm w hw)⟩

end Surgery

section Operations

variable {h h' : Heap} {xs ys bs : List Block} {b d : Block} {n r : ℕ}

theorem Tidy.claim (T : Tidy h bs) (hd : chosenBlock bs n = some d) :
    ∃ bs', Tidy (claimBlock h d (roundedSize n)) bs' := by
  obtain ⟨h0, -, -, hle, us, vs, rfl⟩ := chosenBlock_eq_some hd
  obtain ⟨s, rest, hpieces, -⟩ := splitPieces_free d (roundedSize n) false
  have hr := roundedSize_spec n
  have T₁ := T.split hr.1 (by omega) hle
  rw [hpieces, List.cons_append] at T₁
  exact ⟨_, (T₁.setFree false).withCount _⟩

theorem Tidy.allocate (T : Tidy h bs) (heq : heapAllocate h n = some (r, h')) :
    ∃ bs', Tidy h' bs' := by
  rw [heapAllocate_eq T.layout] at heq
  cases hd : chosenBlock bs n with
  | none =>
    rw [hd] at heq
    cases heq
    exact ⟨bs, T⟩
  | some d =>
    rw [hd] at heq
    cases heq
    exact T.claim hd

/-- Zeros are not the magic number. -/
theorem MagicAt.of_memset {m : Memory} {a k w : ℕ} (h : MagicAt (memset m a 0 k) w)
    (ha : 16 ∣ a) : MagicAt m w := by
  have hword := h.1
  by_cases hin : a ≤ w ∧ w < a + k
  · have hbyte := h.byte
    rw [memset_apply, if_pos hin] at hbyte
    exact absurd hbyte (by decide)
  · exact h.congr fun x h₁ h₂ => by rw [memset_apply, if_neg (by omega)]

theorem Tidy.callocate (T : Tidy h bs) (W : WellFormed h bs) {count size : ℕ}
    (heq : heapCallocate h count size = some (r, h')) : ∃ bs', Tidy h' bs' := by
  unfold heapCallocate at heq
  split_ifs at heq
  · cases heq
    exact ⟨bs, T⟩
  · dsimp only at heq
    rcases heapAllocate_cases W (mul64 count size) with
      ⟨-, hnone⟩ | ⟨h₁, bs₁, c, hsome, C, hused, hle, -, -⟩
    · rw [hnone] at heq
      cases heq
      exact ⟨bs, T⟩
    · rw [hsome] at heq
      cases heq
      obtain ⟨bs₂, T₁⟩ := T.allocate hsome
      obtain rfl := layout_unique T₁.layout C.wellFormed.layout
      have hc : c ∈ bs₂ := (C.mem_iff c hused).mpr (Or.inl rfl)
      have hca := (T₁.layout.tiles.aligned T₁.layout.begin_aligned).2 c hc
      have C' := C.writePayload hused (m := memset h₁.memory (c.address + 32) 0 (mul64 count size))
        fun x hx => by rw [memset_apply, if_neg (by omega)]
      exact ⟨bs₂, T₁.writePayload C'.wellFormed.layout fun w hw => hw.of_memset (by omega)⟩

theorem Tidy.freeBlock (T : Tidy h (xs ++ b :: ys)) :
    Tidy (freeBlock h b.address) (xs ++ absorbNext { b with free := true } ys) := by
  have T₁ := T.setFree true
  unfold HeapOperations.freeBlock
  dsimp only
  split_ifs
  · exact (T₁.withCount _).merge
  · exact T₁.merge

theorem Tidy.release (T : Tidy h bs) (hb : b ∈ bs) (hused : b.free = false) :
    ∃ bs', Tidy (heapRelease h (b.address + 32)) bs' := by
  obtain ⟨xs, ys, rfl⟩ := List.append_of_mem hb
  have T₁ := T.freeBlock
  rw [heapRelease_eq (layout_iff_at.mp T.layout) hused]
  dsimp only
  split_ifs with hprev
  · obtain ⟨c, zs, habs, hc, -⟩ := absorbNext_head { b with free := true } ys
    rw [habs] at T₁
    have hprevious := (layout_iff_at.mp T₁.layout).previous_eq
    rw [hc] at hprevious
    rw [hprevious] at hprev ⊢
    rcases List.eq_nil_or_concat xs with rfl | ⟨us, a, rfl⟩
    · exact absurd rfl hprev.1
    · rw [List.concat_eq_append, lastAddress_append_singleton]
      rw [List.concat_eq_append, List.append_assoc] at T₁
      exact ⟨_, T₁.merge⟩
  · exact ⟨_, T₁⟩

/-- What is copied into the new block is no header. -/
theorem Tidy.move (T : Tidy h bs) (W : WellFormed h bs) (hb : b ∈ bs) (hused : b.free = false)
    (hlt : b.size < roundedSize n) (hd : chosenBlock bs n = some d) :
    ∃ bs', Tidy (moveBlock h b d n) bs' := by
  obtain ⟨bs₁, C₁, -⟩ := allocate_change W hd
  obtain ⟨bs₂, T₁⟩ := T.claim hd
  obtain rfl := layout_unique T₁.layout C₁.wellFormed.layout
  have hle := (chosenBlock_eq_some hd).2.2.2.1
  have hsize := headPiece_size (b := { d with free := false }) hle
  have hcm := (C₁.mem_iff _ rfl).mpr (Or.inl rfl)
  have hbm : b ∈ bs₂ := (C₁.mem_iff b hused).mpr (Or.inr ⟨hb, by simp⟩)
  have hbc := C₁.fresh _ rfl b hb hused (by simp)
  have hapart := T₁.layout.tiles.disjoint hbm hcm fun heq => hbc (heq ▸ rfl)
  have haligned := (T₁.layout.tiles.aligned T₁.layout.begin_aligned).2
  have hba := haligned b hbm
  have hda : 16 ∣ d.address :=
    haligned (headPiece { d with free := false } (roundedSize n)) hcm
  have hbounds := T₁.layout.tiles.mem hbm
  simp only [headPiece] at hsize hapart
  have hcopy (x : ℕ) : memcpy (claimBlock h d (roundedSize n)).memory (d.address + 32)
      (b.address + 32) b.size x = if d.address + 32 ≤ x ∧ x < d.address + 32 + b.size then
        (claimBlock h d (roundedSize n)).memory (b.address + 32 + (x - (d.address + 32)))
      else (claimBlock h d (roundedSize n)).memory x :=
    memcpy_apply _ x (by omega)
  have C₂ := C₁.writePayload rfl (m := memcpy (claimBlock h d (roundedSize n)).memory
    (d.address + 32) (b.address + 32) b.size) fun x hx => by
      simp only [headPiece] at hx
      rw [hcopy, if_neg (by omega)]
  have T₂ := T₁.writePayload C₂.wellFormed.layout fun w hw => by
    have hword := hw.1
    by_cases hin : d.address + 32 ≤ w ∧ w < d.address + 32 + b.size
    · have hsource : MagicAt (claimBlock h d (roundedSize n)).memory
          (b.address + 32 + (w - (d.address + 32))) := by
        refine ⟨by omega, ?_⟩
        rw [← hw.2]
        refine (load_congr fun i hi => ?_).symm
        rw [hcopy, if_pos (by omega)]
        congr 1
        omega
      obtain ⟨u, hu, heq⟩ := T₁.strays _ (by omega) (by omega) hsource
      exact absurd ⟨u, hu, by omega, by omega⟩
        (notInHeader_payload T₁.layout.tiles hbm (Nat.le_add_right _ (w - (d.address + 32)))
          (by omega))
    · exact hw.congr fun x h₁ h₂ => by rw [hcopy, if_neg (by omega)]
  have hreleased := T₂.release hbm hused
  unfold moveBlock
  exact hreleased

theorem Tidy.reallocate (T : Tidy h bs) (W : WellFormed h bs) (hb : b ∈ bs)
    (hused : b.free = false) (h0 : n ≠ 0)
    (heq : heapReallocate h (b.address + 32) n = some (r, h')) : ∃ bs', Tidy h' bs' := by
  obtain ⟨xs, ys, rfl⟩ := List.append_of_mem hb
  have hr := roundedSize_spec n
  rw [heapReallocate_eq (layout_iff_at.mp T.layout) hused h0] at heq
  split_ifs at heq with hbig hfit hgrow
  · cases heq
    exact ⟨_, T⟩
  · cases heq
    exact ⟨_, T.split hr.1 (by omega) hfit⟩
  · cases heq
    cases ys with
    | nil => cases hgrow
    | cons c zs =>
      simp only [growsInto, Bool.and_eq_true, decide_eq_true_eq] at hgrow
      have T₁ := T.merge
      rw [absorbNext, if_pos hgrow.1] at T₁
      exact ⟨_, T₁.split hr.1 (by omega) hgrow.2⟩
  · cases hd : chosenBlock (xs ++ b :: ys) n with
    | none =>
      rw [hd] at heq
      cases heq
      exact ⟨_, T⟩
    | some d =>
      rw [hd] at heq
      cases heq
      exact T.move W hb hused (by omega) hd

end Operations

end JsOs.StrayMagic

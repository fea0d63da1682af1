import JsOs.HeapSurgery

/-!
# What heap surgery leaves alone

`Keeps` compares two layouts: the used blocks outside a set of touched addresses are the same and
keep their payload bytes. Splitting, merging and flag writes each touch one block.
-/

namespace JsOs.HeapFrames

open ByteMemory MachineWords HeapModel HeapLayout HeapSurgery

section Frame

variable {h h' h'' : Heap} {bs bs' bs'' xs ys : List Block} {b : Block}

/-- `x` is a header byte of some block. -/
def InHeader (bs : List Block) (x : ℕ) : Prop := ∃ b ∈ bs, b.address ≤ x ∧ x < b.address + 32

theorem notInHeader_payload {a e x : ℕ} (h : Tiles a e bs) (hb : b ∈ bs)
    (h₁ : b.address + 32 ≤ x) (h₂ : x < b.address + 32 + b.size) : ¬InHeader bs x := by
  rintro ⟨c, hc, hc₁, hc₂⟩
  by_cases hbc : b = c
  · subst hbc
    omega
  · have := h.disjoint hb hc hbc
    omega

theorem Tiles.eq_of_address {a e : ℕ} {c d : Block} (h : Tiles a e bs) (hc : c ∈ bs) (hd : d ∈ bs)
    (heq : c.address = d.address) : c = d := by
  by_contra hne
  have := h.disjoint hc hd hne
  omega

/-- Every used block outside `touched` is in both layouts, with the same payload. -/
structure Keeps (h : Heap) (bs : List Block) (h' : Heap) (bs' : List Block) (touched : Set ℕ) :
    Prop where
  begin_eq : h'.heapBegin = h.heapBegin
  end_eq : h'.heapEnd = h.heapEnd
  mem_iff : ∀ u : Block, u.free = false → u.address ∉ touched → (u ∈ bs' ↔ u ∈ bs)
  bytes : ∀ u ∈ bs, u.free = false → u.address ∉ touched →
    ∀ x, u.address + 32 ≤ x → x < u.address + 32 + u.size → h'.memory x = h.memory x

theorem Keeps.trans {t t' : Set ℕ} (k : Keeps h bs h' bs' t) (k' : Keeps h' bs' h'' bs'' t') :
    Keeps h bs h'' bs'' (t ∪ t') := by
  refine ⟨k'.begin_eq.trans k.begin_eq, k'.end_eq.trans k.end_eq, fun u hu ht => ?_,
    fun u hu hf ht x h₁ h₂ => ?_⟩
  · rw [Set.mem_union, not_or] at ht
    exact (k'.mem_iff u hu ht.2).trans (k.mem_iff u hu ht.1)
  · rw [Set.mem_union, not_or] at ht
    rw [k'.bytes u ((k.mem_iff u hf ht.1).mpr hu) hf ht.2 x h₁ h₂, k.bytes u hu hf ht.1 x h₁ h₂]

theorem Keeps.withCount {t : Set ℕ} (k : Keeps h bs h' bs' t) (n : ℕ) :
    Keeps h bs { h' with allocationCount := n } bs' t :=
  ⟨k.begin_eq, k.end_eq, k.mem_iff, k.bytes⟩

/-- A surgery on one free block touches no used block. -/
theorem Keeps.of_free (L : Layout h bs) (L' : Layout h' bs') {c : Block} (hb : b ∈ bs)
    (hc : c ∈ bs') (hfree : b.free = true) (hfree' : c.free = true) (heq : c.address = b.address)
    (k : Keeps h bs h' bs' {b.address}) : Keeps h bs h' bs' ∅ := by
  refine ⟨k.begin_eq, k.end_eq, fun u hu _ => ?_, fun u hu hf _ => ?_⟩
  · by_cases hub : u.address = b.address
    · constructor
      · intro hm
        have := Tiles.eq_of_address L'.tiles hm hc (hub.trans heq.symm)
        simp_all
      · intro hm
        have := Tiles.eq_of_address L.tiles hm hb hub
        simp_all
    · exact k.mem_iff u hu hub
  · by_cases hub : u.address = b.address
    · have := Tiles.eq_of_address L.tiles hu hb hub
      simp_all
    · exact k.bytes u hu hf hub

end Frame

section Surgery

variable {h : Heap} {xs ys : List Block} {b c : Block} {size x : ℕ}

theorem splitBlock_memory (A : At h xs b ys) (hle : size ≤ b.size)
    (hx : ¬InHeader (xs ++ (splitPieces b size ++ ys)) x) :
    (splitBlock h b.address size).memory x = h.memory x := by
  rw [splitBlock_eq A hle]
  unfold splitPieces at hx
  split_ifs at hx ⊢ with hsmall
  · rfl
  refine splitMemory_apply ?_ ?_ ?_
  · by_contra hcon
    exact hx ⟨⟨b.address, size, b.free⟩, by simp, by dsimp only; omega, by dsimp only; omega⟩
  · by_contra hcon
    exact hx ⟨⟨b.address + 32 + size, b.size - size - 32, true⟩, by simp,
      by dsimp only; omega, by dsimp only; omega⟩
  · cases ys with
    | nil => exact Or.inl rfl
    | cons y ys =>
      by_contra hcon
      simp only [headAddress_cons] at hcon
      exact hx ⟨y, by simp, by omega, by omega⟩

theorem splitBlock_keeps (A : At h xs b ys) (hd : 16 ∣ size) (h16 : 16 ≤ size)
    (hle : size ≤ b.size) :
    Keeps h (xs ++ b :: ys) (splitBlock h b.address size) (xs ++ (splitPieces b size ++ ys))
      {b.address} := by
  have L := splitBlock_layout A hd h16 hle
  have hmem : ∀ u : Block, u.free = false → u.address ≠ b.address →
      (u ∈ xs ++ (splitPieces b size ++ ys) ↔ u ∈ xs ++ b :: ys) := by
    intro u hu hne
    have hub : u ≠ b := fun heq => hne (heq ▸ rfl)
    unfold splitPieces
    split_ifs
    · simp
    · have h₁ : u ≠ ⟨b.address, size, b.free⟩ := fun heq => hne (heq ▸ rfl)
      have h₂ : u ≠ ⟨b.address + 32 + size, b.size - size - 32, true⟩ := by
        rintro rfl
        cases hu
      simp [h₁, h₂, hub]
  refine ⟨?_, ?_, hmem, fun u hu hf hne y h₁ h₂ => ?_⟩
  · rw [splitBlock_eq A hle]
    split_ifs <;> rfl
  · rw [splitBlock_eq A hle]
    split_ifs <;> rfl
  · exact splitBlock_memory A hle
      (notInHeader_payload L.tiles ((hmem u hf hne).mpr hu) h₁ h₂)

/-- `b` together with what follows, after `merge_with_next(b)`. -/
def absorbNext (b : Block) : List Block → List Block
  | [] => [b]
  | c :: ys => if c.free then merged b c :: ys else b :: c :: ys

theorem absorbNext_cases (b : Block) (ys : List Block) :
    (absorbNext b ys = b :: ys ∧ ∀ c ∈ ys.head?, c.free = false) ∨
      ∃ c zs, ys = c :: zs ∧ c.free = true ∧ absorbNext b ys = merged b c :: zs := by
  cases ys with
  | nil => exact Or.inl ⟨rfl, by simp⟩
  | cons c ys =>
    cases hc : c.free with
    | true => exact Or.inr ⟨c, ys, rfl, hc, by simp [absorbNext, hc]⟩
    | false => exact Or.inl ⟨by simp [absorbNext, hc], by simp [hc]⟩

theorem mergeWithNext_absorb (A : At h xs b ys) :
    Layout (mergeWithNext h b.address) (xs ++ absorbNext b ys) := by
  rcases absorbNext_cases b ys with ⟨heq, hused⟩ | ⟨c, zs, rfl, hc, heq⟩
  · rw [heq, mergeWithNext_of_used A hused]
    exact layout_iff_at.mpr A
  · rw [heq]
    exact mergeWithNext_layout A hc

theorem mergeWithNext_memory (A : At h xs b ys) (hx : ¬InHeader (xs ++ b :: ys) x) :
    (mergeWithNext h b.address).memory x = h.memory x := by
  rcases absorbNext_cases b ys with ⟨-, hused⟩ | ⟨c, zs, rfl, hc, -⟩
  · rw [mergeWithNext_of_used A hused]
  · rw [mergeWithNext_eq A hc]
    refine mergeMemory_apply ?_ ?_ ?_
    · by_contra hcon
      exact hx ⟨b, by simp, by omega, by omega⟩
    · by_contra hcon
      exact hx ⟨c, by simp, by omega, by omega⟩
    · cases zs with
      | nil => exact Or.inl rfl
      | cons y zs =>
        by_contra hcon
        simp only [headAddress_cons] at hcon
        exact hx ⟨y, by simp, by omega, by omega⟩

theorem mergeWithNext_keeps (A : At h xs b ys) :
    Keeps h (xs ++ b :: ys) (mergeWithNext h b.address) (xs ++ absorbNext b ys) {b.address} := by
  have L := layout_iff_at.mpr A
  refine ⟨?_, ?_, fun u hu hne => ?_, fun u hu hf hne y h₁ h₂ =>
    mergeWithNext_memory A (notInHeader_payload L.tiles hu h₁ h₂)⟩
  · rcases absorbNext_cases b ys with ⟨-, hused⟩ | ⟨c, zs, rfl, hc, -⟩
    · rw [mergeWithNext_of_used A hused]
    · rw [mergeWithNext_eq A hc]
  · rcases absorbNext_cases b ys with ⟨-, hused⟩ | ⟨c, zs, rfl, hc, -⟩
    · rw [mergeWithNext_of_used A hused]
    · rw [mergeWithNext_eq A hc]
  · rcases absorbNext_cases b ys with ⟨heq, -⟩ | ⟨c, zs, rfl, hc, heq⟩
    · rw [heq]
    · have hub : u ≠ b := fun h => hne (h ▸ rfl)
      have hum : u ≠ merged b c := fun h => hne (h ▸ rfl)
      have huc : u ≠ c := by
        rintro rfl
        simp_all
      simp [heq, hub, hum, huc]

theorem mergeWithNext_allocationCount (A : At h xs b ys) :
    (mergeWithNext h b.address).allocationCount = h.allocationCount := by
  rcases absorbNext_cases b ys with ⟨-, hused⟩ | ⟨c, zs, rfl, hc, -⟩
  · rw [mergeWithNext_of_used A hused]
  · rw [mergeWithNext_eq A hc]

theorem setFree_keeps (A : At h xs b ys) (f : Bool) :
    Keeps h (xs ++ b :: ys) (h.setFree b.address f) (xs ++ { b with free := f } :: ys)
      {b.address} := by
  have L := layout_iff_at.mpr A
  refine ⟨rfl, rfl, fun u hu hne => ?_, fun u hu hf hne y h₁ h₂ => ?_⟩
  · have hub : u ≠ b := fun h => hne (h ▸ rfl)
    have hub' : u ≠ { b with free := f } := fun h => hne (h ▸ rfl)
    simp [hub, hub']
  · have hpos := A.size_pos
    have hub : u ≠ b := fun h => hne (h ▸ rfl)
    have := L.tiles.disjoint hu (by simp : b ∈ xs ++ b :: ys) hub
    exact store_apply_of_notMem (by omega)

end Surgery

end JsOs.HeapFrames

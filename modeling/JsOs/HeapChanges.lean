import JsOs.HeapOperations
import Mathlib.Data.List.Chain

/-!
# What one heap operation changes

A successful operation takes at most one used block out of the layout and puts at most one in.
`Change` records which; every other used block stays where it is, with its bytes. Whether two
adjacent blocks are free afterwards is stated beside each change.
-/

namespace JsOs.HeapChanges

open ByteMemory MachineWords HeapModel HeapLayout HeapSurgery HeapFrames HeapOperations

def usedCount (bs : List Block) : ℕ := bs.countP (fun b => !b.free)

/-- A layout whose used blocks are the ones that were counted. -/
structure WellFormed (h : Heap) (bs : List Block) : Prop where
  layout : Layout h bs
  count_eq : h.allocationCount = usedCount bs

/-- No two adjacent blocks are free. -/
def Coalesced (bs : List Block) : Prop := bs.IsChain (fun b c => b.free = false ∨ c.free = false)

section Lists

variable {xs ys : List Block} {b c : Block} {k : ℕ}

@[simp] theorem usedCount_nil : usedCount [] = 0 := rfl

@[simp] theorem usedCount_append (xs ys : List Block) :
    usedCount (xs ++ ys) = usedCount xs + usedCount ys := List.countP_append ..

@[simp] theorem usedCount_cons (b : Block) (bs : List Block) :
    usedCount (b :: bs) = usedCount bs + if b.free then 0 else 1 := by
  cases hb : b.free <;> simp [usedCount, hb]

@[simp] theorem usedCount_splitPieces (b : Block) (k : ℕ) :
    usedCount (splitPieces b k) = usedCount [b] := by
  unfold splitPieces
  split_ifs <;> simp

@[simp] theorem usedCount_absorbNext (b : Block) (ys : List Block) :
    usedCount (absorbNext b ys) = usedCount (b :: ys) := by
  rcases absorbNext_cases b ys with ⟨heq, -⟩ | ⟨c, zs, rfl, hc, heq⟩
  · rw [heq]
  · simp [heq, merged, hc]

@[simp] theorem usedCount_coalesce (xs : List Block) (b : Block) (ys : List Block) :
    usedCount (coalesce xs b ys) = usedCount (xs ++ b :: ys) := by
  rcases List.eq_nil_or_concat xs with rfl | ⟨us, a, rfl⟩
  · simp [coalesce]
  · cases ha : a.free <;> simp [coalesce, ha]

theorem usedCount_lt {h : Heap} {bs : List Block} (W : WellFormed h bs) : usedCount bs < 2 ^ 64 :=
  lt_of_le_of_lt List.countP_le_length (length_lt_walkFuel W.layout)

theorem coalesced_middle : Coalesced (xs ++ b :: ys) ↔
    Coalesced (xs ++ [b]) ∧ Coalesced (b :: ys) := by
  unfold Coalesced
  rw [List.isChain_split]

theorem coalesced_cons : Coalesced (b :: ys) ↔
    (∀ c ∈ ys.head?, b.free = false ∨ c.free = false) ∧ Coalesced ys := by
  unfold Coalesced
  rw [List.isChain_cons]

/-- A block may be exchanged for one of the same flag, or for a used one. -/
theorem coalesced_exchange (h : Coalesced (xs ++ b :: ys))
    (hbc : c.free = b.free ∨ c.free = false) : Coalesced (xs ++ c :: ys) := by
  obtain ⟨hleft, hright⟩ := coalesced_middle.mp h
  rw [coalesced_middle]
  constructor
  · unfold Coalesced at hleft ⊢
    rw [List.isChain_append] at hleft ⊢
    refine ⟨hleft.1, by simp, fun x hx y hy => ?_⟩
    have hxb := hleft.2.2 x hx b (by simp)
    obtain rfl : c = y := by simpa using hy
    rcases hbc with hbc | hbc
    · rwa [hbc]
    · exact Or.inr hbc
  · rw [coalesced_cons] at hright ⊢
    refine ⟨fun d hd => ?_, hright.2⟩
    rcases hbc with hbc | hbc
    · rw [hbc]
      exact hright.1 d hd
    · exact Or.inl hbc

/-- A free block may follow a used one when its own right neighbour is used. -/
theorem coalesced_insert (hb : b.free = false) (hys : ∀ d ∈ ys.head?, d.free = false)
    (h : Coalesced (xs ++ b :: ys)) : Coalesced (xs ++ b :: c :: ys) := by
  obtain ⟨hleft, hright⟩ := coalesced_middle.mp h
  refine coalesced_middle.mpr ⟨hleft, coalesced_cons.mpr ⟨fun _ _ => Or.inl hb, ?_⟩⟩
  exact coalesced_cons.mpr ⟨fun d hd => Or.inr (hys d hd), (coalesced_cons.mp hright).2⟩

theorem coalesced_shrink (hb : b.free = false)
    (hys : k + 48 ≤ b.size → ∀ d ∈ ys.head?, d.free = false)
    (h : Coalesced (xs ++ b :: ys)) : Coalesced (xs ++ (splitPieces b k ++ ys)) := by
  unfold splitPieces
  split_ifs with hsmall
  · exact h
  · have h' : Coalesced (xs ++ ⟨b.address, k, b.free⟩ :: ys) := coalesced_exchange h (Or.inl rfl)
    exact coalesced_insert hb (hys (by omega)) h'

theorem coalesced_right_used (hb : b.free = true) (h : Coalesced (xs ++ b :: ys)) :
    ∀ d ∈ ys.head?, d.free = false := by
  intro d hd
  have := (coalesced_cons.mp (coalesced_middle.mp h).2).1 d hd
  simpa [hb] using this

theorem coalesced_claim (hb : b.free = true) (h : Coalesced (xs ++ b :: ys)) :
    Coalesced (xs ++ (splitPieces { b with free := false } k ++ ys)) :=
  coalesced_shrink rfl (fun _ => coalesced_right_used hb h) (coalesced_exchange h (Or.inr rfl))

theorem coalesced_merge (hc : c.free = true) (h : Coalesced (xs ++ b :: c :: ys)) :
    Coalesced (xs ++ merged b c :: ys) ∧ ∀ d ∈ ys.head?, d.free = false := by
  have hys : ∀ d ∈ ys.head?, d.free = false := by
    have hsplit : xs ++ b :: c :: ys = (xs ++ [b]) ++ c :: ys := by simp
    exact coalesced_right_used hc (hsplit ▸ h)
  obtain ⟨hleft, hright⟩ := coalesced_middle.mp h
  have h' : Coalesced (xs ++ b :: ys) := coalesced_middle.mpr ⟨hleft, coalesced_cons.mpr
    ⟨fun d hd => Or.inr (hys d hd), (coalesced_cons.mp (coalesced_cons.mp hright).2).2⟩⟩
  exact ⟨coalesced_exchange h' (Or.inl rfl), hys⟩

/-- A block that has just become free, together with what follows it. -/
theorem coalesced_absorb (hb : b.free = true) (h : Coalesced ys) : ∃ e ws,
    absorbNext b ys = e :: ws ∧ e.free = true ∧ (∀ d ∈ ws.head?, d.free = false) ∧
      Coalesced ws := by
  rcases absorbNext_cases b ys with ⟨heq, hused⟩ | ⟨c, zs, rfl, hc, heq⟩
  · exact ⟨b, ys, heq, hb, hused, h⟩
  · refine ⟨merged b c, zs, heq, hb, fun d hd => ?_, (coalesced_cons.mp h).2⟩
    have := (coalesced_cons.mp h).1 d hd
    simpa [hc] using this

theorem coalesced_coalesce (hb : b.free = true) (hxs : Coalesced xs) (hys : Coalesced ys) :
    Coalesced (coalesce xs b ys) := by
  obtain ⟨e, ws, habs, he, hws, hchain⟩ := coalesced_absorb hb hys
  have htail : Coalesced (e :: ws) := coalesced_cons.mpr ⟨fun d hd => Or.inr (hws d hd), hchain⟩
  rcases List.eq_nil_or_concat xs with rfl | ⟨us, a, rfl⟩
  · simpa [coalesce, habs] using htail
  · rw [List.concat_eq_append] at hxs ⊢
    cases ha : a.free with
    | false =>
      simp only [coalesce, List.getLast?_append, List.getLast?_singleton, Option.some_or, ha,
        Bool.false_eq_true, if_false, habs, List.append_assoc, List.singleton_append]
      exact coalesced_middle.mpr ⟨hxs, coalesced_cons.mpr ⟨fun _ _ => Or.inl ha, htail⟩⟩
    | true =>
      have hmerge : absorbNext a (e :: ws) = merged a e :: ws := by simp [absorbNext, he]
      have hflag : Coalesced (us ++ [merged a e]) := coalesced_exchange hxs (Or.inl rfl)
      simp only [coalesce, List.getLast?_append, List.getLast?_singleton, Option.some_or, ha,
        if_true, habs, List.dropLast_concat, hmerge]
      exact coalesced_middle.mpr
        ⟨hflag, coalesced_cons.mpr ⟨fun d hd => Or.inr (hws d hd), hchain⟩⟩

end Lists

/-- From `(h, bs)` to `(h', bs')` the used block `removed` goes and the used block `added`
comes; all others keep their place and their bytes. -/
structure Change (h : Heap) (bs : List Block) (h' : Heap) (bs' : List Block)
    (removed added : Option Block) : Prop where
  wellFormed : WellFormed h' bs'
  begin_eq : h'.heapBegin = h.heapBegin
  end_eq : h'.heapEnd = h.heapEnd
  mem_iff : ∀ u : Block, u.free = false →
    (u ∈ bs' ↔ added = some u ∨ u ∈ bs ∧ removed ≠ some u)
  fresh : ∀ c : Block, added = some c → ∀ u ∈ bs, u.free = false → removed ≠ some u →
    u.address ≠ c.address
  bytes : ∀ u ∈ bs, u.free = false → removed ≠ some u →
    ∀ x, u.address + 32 ≤ x → x < u.address + 32 + u.size → h'.memory x = h.memory x

section Changes

variable {h h' h'' : Heap} {bs bs' bs'' xs ys : List Block} {b c d : Block} {n k : ℕ}
variable {removed added : Option Block}

theorem Change.of_keeps {a : ℕ} (W' : WellFormed h' bs') (K : Keeps h bs h' bs' {a})
    (hr : ∀ u : Block, u.free = false → u.address = a → (u ∈ bs ↔ removed = some u))
    (ha : ∀ u : Block, u.free = false → u.address = a → (u ∈ bs' ↔ added = some u))
    (hra : ∀ u, removed = some u → u.address = a) (haa : ∀ u, added = some u → u.address = a) :
    Change h bs h' bs' removed added := by
  refine ⟨W', K.begin_eq, K.end_eq, fun u hu => ?_, fun c hc u hm hu hne heq => ?_,
    fun u hm hu hne x h₁ h₂ => ?_⟩
  · by_cases hua : u.address = a
    · rw [ha u hu hua, hr u hu hua]
      simp
    · have h₁ : removed ≠ some u := fun h => hua (hra u h)
      have h₂ : added ≠ some u := fun h => hua (haa u h)
      rw [K.mem_iff u hu hua]
      simp [h₁, h₂]
  · exact hne ((hr u hu (heq.trans (haa c hc))).mp hm)
  · exact K.bytes u hm hu (fun hua => hne ((hr u hu hua).mp hm)) x h₁ h₂

theorem mem_iff_eq (L : Layout h bs) (hc : c ∈ bs) (u : Block)
    (hu : u.address = c.address) : u ∈ bs ↔ u = c :=
  ⟨fun hm => Tiles.eq_of_address L.tiles hm hc hu, fun heq => heq ▸ hc⟩

/-- The piece of `b` that `split_block` leaves at its address. -/
def headPiece (b : Block) (k : ℕ) : Block :=
  ⟨b.address, if b.size < k + 48 then b.size else k, b.free⟩

theorem headPiece_mem (b : Block) (k : ℕ) : headPiece b k ∈ splitPieces b k := by
  unfold splitPieces headPiece
  split_ifs <;> simp

theorem headPiece_size (hle : k ≤ b.size) : k ≤ (headPiece b k).size ∧
    (headPiece b k).size < k + 48 ∧ (headPiece b k).size ≤ b.size := by
  unfold headPiece
  dsimp only
  split_ifs <;> omega

/-- A free block that has been claimed is counted. -/
theorem claim_wellFormed (W : WellFormed h (xs ++ d :: ys)) (hfree : d.free = true)
    (hd : 16 ∣ k) (h16 : 16 ≤ k) (hle : k ≤ d.size) :
    WellFormed (claimBlock h d k) (xs ++ (splitPieces { d with free := false } k ++ ys)) := by
  have A := layout_iff_at.mp W.layout
  have L' := claimBlock_layout A hd h16 hle
  -- one more used block, and still fewer than the counter can hold
  have hlen : usedCount _ < 2 ^ 64 :=
    lt_of_le_of_lt List.countP_le_length (length_lt_walkFuel L')
  refine ⟨L', ?_⟩
  rw [claimBlock_allocationCount A hle, W.count_eq]
  simp only [usedCount_append, usedCount_cons, usedCount_splitPieces, usedCount_nil, hfree,
    if_true, Bool.false_eq_true, if_false] at hlen ⊢
  rw [add64_eq (by omega)]
  omega

/-- `heap_allocate` takes a piece of the chosen block. -/
theorem allocate_change (W : WellFormed h bs) (hd : chosenBlock bs n = some d) : ∃ bs',
    Change h bs (claimBlock h d (roundedSize n)) bs' none
        (some (headPiece { d with free := false } (roundedSize n))) ∧
      (Coalesced bs → Coalesced bs') := by
  have h0 := (chosenBlock_eq_some hd).1
  obtain ⟨us, vs, rfl, -, hfree, hle, L', K⟩ := chosenBlock_claimed W.layout hd
  have hr := roundedSize_spec n
  refine ⟨us ++ (splitPieces { d with free := false } (roundedSize n) ++ vs), ?_,
    fun hc => coalesced_claim hfree hc⟩
  have hmem := List.mem_append_right us
    (List.mem_append_left vs (headPiece_mem { d with free := false } (roundedSize n)))
  refine Change.of_keeps (claim_wellFormed W hfree hr.1 (by omega) hle) K (fun u hu hua => ?_)
    (fun u hu hua => ?_) (by simp) (by rintro u ⟨⟩; rfl)
  · rw [mem_iff_eq W.layout (by simp : d ∈ us ++ d :: vs) u hua]
    simp only [reduceCtorEq, iff_false]
    rintro rfl
    simp_all
  · rw [mem_iff_eq L' hmem u hua, Option.some.injEq, eq_comm]

/-- `heap_release` of a used block. -/
theorem release_wellFormed (W : WellFormed h (xs ++ b :: ys)) (hused : b.free = false) :
    WellFormed (heapRelease h (b.address + 32)) (coalesce xs { b with free := true } ys) := by
  obtain ⟨L', -, -, hcount⟩ :=
    heapRelease_spec (layout_iff_at.mp W.layout) hused (W.count_eq ▸ usedCount_lt W)
  refine ⟨L', ?_⟩
  rw [hcount, W.count_eq]
  simp [hused]

theorem release_change (W : WellFormed h bs) (hb : b ∈ bs) (hused : b.free = false) : ∃ bs',
    Change h bs (heapRelease h (b.address + 32)) bs' (some b) none ∧
      (Coalesced bs → Coalesced bs') := by
  obtain ⟨xs, ys, rfl⟩ := List.append_of_mem hb
  have A := layout_iff_at.mp W.layout
  obtain ⟨-, K, hfresh, -⟩ := heapRelease_spec A hused (W.count_eq ▸ usedCount_lt W)
  refine ⟨_, Change.of_keeps (release_wellFormed W hused) K (fun u hu hua => ?_)
    (fun u hu hua => ?_) (by rintro u ⟨⟩; rfl) (by simp), fun hc => ?_⟩
  · rw [mem_iff_eq W.layout hb u hua, Option.some.injEq, eq_comm]
  · simpa using hfresh u hu hua
  · obtain ⟨hleft, hright⟩ := coalesced_middle.mp hc
    refine coalesced_coalesce rfl ?_ (coalesced_cons.mp hright).2
    exact List.IsChain.left_of_append hleft

/-- `split_block` of a used block. -/
theorem resize_change (W : WellFormed h (xs ++ b :: ys)) (hused : b.free = false)
    (hd : 16 ∣ k) (h16 : 16 ≤ k) (hle : k ≤ b.size) : ∃ bs',
    Change h (xs ++ b :: ys) (splitBlock h b.address k) bs' (some b) (some (headPiece b k)) ∧
      (∀ x, b.address + 32 ≤ x → x < b.address + 32 + k →
        (splitBlock h b.address k).memory x = h.memory x) ∧
      ((k + 48 ≤ b.size → ∀ c ∈ ys.head?, c.free = false) →
        Coalesced (xs ++ b :: ys) → Coalesced bs') := by
  have A := layout_iff_at.mp W.layout
  have hb : b ∈ xs ++ b :: ys := by simp
  have L' := splitBlock_layout A hd h16 hle
  have hmem := List.mem_append_right xs (List.mem_append_left ys (headPiece_mem b k))
  have hsize := headPiece_size hle
  refine ⟨_, Change.of_keeps ⟨L', ?_⟩ (splitBlock_keeps A hd h16 hle) (fun u hu hua => ?_)
    (fun u hu hua => ?_) (by rintro u ⟨⟩; rfl) (by rintro u ⟨⟩; rfl), fun x h₁ h₂ => ?_,
    fun hys hc => coalesced_shrink hused hys hc⟩
  · rw [splitBlock_allocationCount A hle, W.count_eq]
    simp [Nat.add_comm]
  · rw [mem_iff_eq W.layout hb u hua, Option.some.injEq, eq_comm]
  · rw [mem_iff_eq L' hmem u hua, Option.some.injEq, eq_comm]
  · refine splitBlock_memory A hle (notInHeader_payload L'.tiles hmem h₁ ?_)
    simp only [headPiece] at hsize ⊢
    omega

/-- `merge_with_next` of a used block. -/
theorem merge_change (W : WellFormed h (xs ++ b :: c :: ys)) (hc : c.free = true) :
    Change h (xs ++ b :: c :: ys) (mergeWithNext h b.address) (xs ++ merged b c :: ys) (some b)
        (some (merged b c)) ∧
      ∀ x, b.address + 32 ≤ x → x < b.address + 32 + b.size →
        (mergeWithNext h b.address).memory x = h.memory x := by
  have A := layout_iff_at.mp W.layout
  have L' := mergeWithNext_layout A hc
  have K := mergeWithNext_keeps A
  have habs : absorbNext b (c :: ys) = merged b c :: ys := by simp [absorbNext, hc]
  rw [habs] at K
  have hb : b ∈ xs ++ b :: c :: ys := by simp
  refine ⟨Change.of_keeps ⟨L', ?_⟩ K (fun u hu hua => ?_) (fun u hu hua => ?_)
    (by rintro u ⟨⟩; rfl) (by rintro u ⟨⟩; rfl), fun x h₁ h₂ => ?_⟩
  · rw [mergeWithNext_allocationCount A, W.count_eq]
    simp [merged, hc]
  · rw [mem_iff_eq W.layout hb u hua, Option.some.injEq, eq_comm]
  · rw [mem_iff_eq L' (by simp : merged b c ∈ xs ++ merged b c :: ys) u hua,
      Option.some.injEq, eq_comm]
  · exact mergeWithNext_memory A (notInHeader_payload W.layout.tiles hb h₁ h₂)

/-- Two changes in a row at one place. -/
theorem Change.trans_same {e : Block} (C : Change h bs h' bs' (some b) (some c))
    (C' : Change h' bs' h'' bs'' (some c) (some e)) (hcb : c.address = b.address)
    (L : Layout h bs) (hb : b ∈ bs) : Change h bs h'' bs'' (some b) (some e) := by
  have hother : ∀ u ∈ bs, some b ≠ some u → some c ≠ some u := by
    rintro u hu hne ⟨⟩
    exact hne (congrArg some (Tiles.eq_of_address L.tiles hb hu hcb.symm))
  refine ⟨C'.wellFormed, C'.begin_eq.trans C.begin_eq, C'.end_eq.trans C.end_eq, fun u hu => ?_,
    fun f hf u hm hu hne => ?_, fun u hm hu hne x h₁ h₂ => ?_⟩
  · rw [C'.mem_iff u hu, C.mem_iff u hu]
    constructor
    · rintro (he | ⟨he | ⟨hm, hne⟩, hne'⟩)
      · exact Or.inl he
      · exact absurd he hne'
      · exact Or.inr ⟨hm, hne⟩
    · rintro (he | ⟨hm, hne⟩)
      · exact Or.inl he
      · exact Or.inr ⟨Or.inr ⟨hm, hne⟩, hother u hm hne⟩
  · exact C'.fresh f hf u ((C.mem_iff u hu).mpr (Or.inr ⟨hm, hne⟩)) hu (hother u hm hne)
  · have hm' : u ∈ bs' := (C.mem_iff u hu).mpr (Or.inr ⟨hm, hne⟩)
    rw [C'.bytes u hm' hu (hother u hm hne) x h₁ h₂, C.bytes u hm hu hne x h₁ h₂]

/-- Something comes, then something else goes. -/
theorem Change.trans_move (C : Change h bs h' bs' none (some c))
    (C' : Change h' bs' h'' bs'' (some b) none) (hcb : b ≠ c) :
    Change h bs h'' bs'' (some b) (some c) := by
  refine ⟨C'.wellFormed, C'.begin_eq.trans C.begin_eq, C'.end_eq.trans C.end_eq, fun u hu => ?_,
    fun f hf u hm hu _ => C.fresh f hf u hm hu (by simp), fun u hm hu hne x h₁ h₂ => ?_⟩
  · rw [C'.mem_iff u hu, C.mem_iff u hu]
    constructor
    · rintro (he | ⟨he | ⟨hm, -⟩, hne⟩)
      · cases he
      · exact Or.inl he
      · exact Or.inr ⟨hm, hne⟩
    · rintro (he | ⟨hm, hne⟩)
      · refine Or.inr ⟨Or.inl he, ?_⟩
        rintro ⟨⟩
        exact hcb (Option.some.inj he).symm
      · exact Or.inr ⟨Or.inr ⟨hm, by simp⟩, hne⟩
  · have hm' : u ∈ bs' := (C.mem_iff u hu).mpr (Or.inr ⟨hm, by simp⟩)
    rw [C'.bytes u hm' hu hne x h₁ h₂, C.bytes u hm hu (by simp) x h₁ h₂]

/-- A write inside the payload of `c` leaves the layout and all other payloads alone. -/
theorem WellFormed.writePayload (W : WellFormed h bs) (hc : c ∈ bs) {m : Memory}
    (hm : ∀ x, x < c.address + 32 ∨ c.address + 32 + c.size ≤ x → m x = h.memory x) :
    WellFormed { h with memory := m } bs ∧ ∀ u ∈ bs, u ≠ c →
      ∀ x, u.address + 32 ≤ x → x < u.address + 32 + u.size → m x = h.memory x := by
  have T := W.layout.tiles
  have hheader : ∀ b ∈ bs, ∀ x, b.address ≤ x → x < b.address + 32 → m x = h.memory x := by
    intro b hb x h₁ h₂
    refine hm x ?_
    by_contra hin
    exact notInHeader_payload T hc (by omega) (by omega) ⟨b, hb, h₁, h₂⟩
  constructor
  · exact ⟨⟨W.layout.begin_pos, W.layout.begin_aligned, W.layout.end_lt, W.layout.first_eq,
      W.layout.nonempty, T, W.layout.linked.congr hheader, W.layout.not_wrapped⟩, W.count_eq⟩
  · intro u hu hne x h₁ h₂
    have := T.disjoint hu hc hne
    exact hm x (by omega)

/-- The new block may be filled. -/
theorem Change.writePayload (C : Change h bs h' bs' removed (some c)) (hused : c.free = false)
    {m : Memory}
    (hm : ∀ x, x < c.address + 32 ∨ c.address + 32 + c.size ≤ x → m x = h'.memory x) :
    Change h bs { h' with memory := m } bs' removed (some c) := by
  have hc : c ∈ bs' := (C.mem_iff c hused).mpr (Or.inl rfl)
  obtain ⟨W', hother⟩ := C.wellFormed.writePayload hc hm
  refine ⟨W', C.begin_eq, C.end_eq, C.mem_iff, C.fresh, fun u hu hf hne x h₁ h₂ => ?_⟩
  have hu' : u ∈ bs' := (C.mem_iff u hf).mpr (Or.inr ⟨hu, hne⟩)
  have huc : u ≠ c := fun heq => C.fresh c rfl u hu hf hne (heq ▸ rfl)
  exact (hother u hu' huc x h₁ h₂).trans (C.bytes u hu hf hne x h₁ h₂)

end Changes

end JsOs.HeapChanges

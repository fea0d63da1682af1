import JsOs.HeapCapacity

/-!
# First fit on a list of blocks

The heap without its memory: a list of blocks in address order, each free or used. The heap does to
its block list what this allocator does to the list, and returns the same pointers; so what the
clients write has no part in where their data is put.
-/

namespace JsOs.BlockAllocator

open MachineWords HeapModel HeapLayout HeapSurgery HeapFrames HeapOperations HeapChanges HeapCalls
open HeapRuns HeapStatistics HeapCoalescing AllocatorBooks HeapCapacity TransitionRuns

/-- The first free block of at least `k` bytes becomes used, cut down to `k` if the rest can be a
block of its own. -/
def takeFirst (k : ℕ) : List Block → Option (ℕ × List Block)
  | [] => none
  | b :: bs =>
    if fits k b then some (b.address + 32, splitPieces { b with free := false } k ++ bs)
    else (takeFirst k bs).map fun taken => (taken.1, b :: taken.2)

def allocate (bs : List Block) (n : ℕ) : ℕ × List Block :=
  if n = 0 ∨ sizeMax - 15 < n then (0, bs)
  else (takeFirst (roundedSize n) bs).getD (0, bs)

def callocate (bs : List Block) (count size : ℕ) : ℕ × List Block :=
  if count ≠ 0 ∧ size > sizeMax / count then (0, bs) else allocate bs (count * size)

/-- The blocks before the one whose payload begins at `p`, and the others. -/
def cutAt (p : ℕ) (bs : List Block) : List Block × List Block :=
  bs.span fun b => b.address + 32 != p

/-- The block becomes free and joins the free blocks beside it. -/
def giveBack (bs : List Block) (p : ℕ) : List Block :=
  match cutAt p bs with
  | (xs, b :: ys) => coalesce xs { b with free := true } ys
  | (_, []) => bs

/-- In place where the block, or it and a free next one, is large enough, and else somewhere
else. -/
def resize (bs : List Block) (p n : ℕ) : ℕ × List Block :=
  if sizeMax - 15 < n then (0, bs)
  else match cutAt p bs with
  | (xs, b :: ys) =>
    if roundedSize n ≤ b.size then (p, xs ++ (splitPieces b (roundedSize n) ++ ys))
    else if growsInto b (roundedSize n) ys then
      match absorbNext b ys with
      | c :: zs => (p, xs ++ (splitPieces c (roundedSize n) ++ zs))
      | [] => (0, bs)
    else match allocate bs n with
      | (0, _) => (0, bs)
      | (q, moved) => (q, giveBack moved p)
  | (_, []) => (0, bs)

/-- What a call does to the blocks. -/
def blockCall (bs : List Block) : HeapCall → ℕ × List Block
  | .allocate n => allocate bs n
  | .callocate count size => callocate bs count size
  | .reallocate p n =>
    if p = 0 then allocate bs n else if n = 0 then (0, giveBack bs p) else resize bs p n
  | .release p => (0, if p = 0 then bs else giveBack bs p)
  | .write _ _ => (0, bs)

section Lists

variable {bs bs' xs ys : List Block} {b d : Block} {k n p a e : ℕ}

theorem takeFirst_none (h : takeFirst k bs = none) : bs.find? (fits k) = none := by
  induction bs with
  | nil => rfl
  | cons b bs ih =>
    rw [takeFirst] at h
    split_ifs at h with hb
    rw [List.find?_cons_of_neg hb]
    exact ih (Option.map_eq_none_iff.mp h)

/-- What has been taken is what the search settles on. -/
theorem takeFirst_some (h : takeFirst k bs = some (p, bs')) : ∃ xs b ys, bs = xs ++ b :: ys ∧
    bs.find? (fits k) = some b ∧ p = b.address + 32 ∧
      bs' = xs ++ (splitPieces { b with free := false } k ++ ys) := by
  induction bs generalizing p bs' with
  | nil => cases h
  | cons b bs ih =>
    rw [takeFirst] at h
    split_ifs at h with hb
    · cases h
      exact ⟨[], b, bs, rfl, List.find?_cons_of_pos hb, rfl, rfl⟩
    · obtain ⟨⟨q, cs⟩, hq, heq⟩ := Option.map_eq_some_iff.mp h
      cases heq
      obtain ⟨xs, d, ys, rfl, hfind, rfl, rfl⟩ := ih hq
      exact ⟨b :: xs, d, ys, rfl, by rwa [List.find?_cons_of_neg hb], rfl, rfl⟩

theorem cutAt_eq (T : Tiles a e (xs ++ b :: ys)) :
    cutAt (b.address + 32) (xs ++ b :: ys) = (xs, b :: ys) := by
  have hbefore : ∀ c ∈ xs, (c.address + 32 != b.address + 32) = true := by
    intro c hc
    have hnodup := tiles_nodup T
    rw [List.map_append, List.map_cons] at hnodup
    have hdisjoint := (List.nodup_append.mp hnodup).2.2 _ (List.mem_map_of_mem hc) _
      List.mem_cons_self
    exact bne_iff_ne.mpr hdisjoint
  unfold cutAt
  rw [List.span_eq_takeWhile_dropWhile, List.takeWhile_append_of_pos hbefore,
    List.dropWhile_append_of_pos hbefore]
  simp

end Lists

section Operations

variable {h : Heap} {bs xs ys : List Block} {b d : Block} {k n : ℕ}

theorem heapAllocate_blocks (W : WellFormed h bs) (n : ℕ) :
    ∃ h', heapAllocate h n = some ((allocate bs n).1, h') ∧ WellFormed h' (allocate bs n).2 := by
  have hr := roundedSize_spec n
  rw [heapAllocate_eq W.layout]
  unfold allocate chosenBlock
  split_ifs with hguard
  · exact ⟨h, rfl, W⟩
  cases htake : takeFirst (roundedSize n) bs with
  | none =>
    rw [takeFirst_none htake]
    exact ⟨h, rfl, W⟩
  | some taken =>
    obtain ⟨xs, b, ys, rfl, hfind, hp, hbs⟩ := takeFirst_some htake
    have hfit := List.find?_some hfind
    simp only [fits, Bool.and_eq_true, decide_eq_true_eq] at hfit
    rw [hfind, Option.getD_some, hp, hbs]
    exact ⟨_, rfl, claim_wellFormed W hfit.1 hr.1 (by omega) hfit.2⟩

theorem heapRelease_blocks (W : WellFormed h bs) (hb : b ∈ bs) (hused : b.free = false) :
    WellFormed (heapRelease h (b.address + 32)) (giveBack bs (b.address + 32)) := by
  obtain ⟨xs, ys, rfl⟩ := List.append_of_mem hb
  unfold giveBack
  rw [cutAt_eq W.layout.tiles]
  exact release_wellFormed W hused

theorem splitBlock_blocks (W : WellFormed h (xs ++ b :: ys)) (n : ℕ) (h0 : n ≠ 0)
    (hle : roundedSize n ≤ b.size) :
    WellFormed (splitBlock h b.address (roundedSize n))
      (xs ++ (splitPieces b (roundedSize n) ++ ys)) := by
  have A := layout_iff_at.mp W.layout
  have hr := roundedSize_spec n
  refine ⟨splitBlock_layout A hr.1 (by omega) hle, ?_⟩
  rw [splitBlock_allocationCount A hle, W.count_eq]
  simp [Nat.add_comm]

theorem moveBlock_blocks (W : WellFormed h bs) (hb : b ∈ bs) (hused : b.free = false)
    (hlt : b.size < roundedSize n) (hd : chosenBlock bs n = some d) :
    (allocate bs n).1 = d.address + 32 ∧
      WellFormed (moveBlock h b d n) (giveBack (allocate bs n).2 (b.address + 32)) := by
  obtain ⟨h', heq, W'⟩ := heapAllocate_blocks W n
  have hclaim := heapAllocate_eq W.layout n
  rw [hd, heq, Option.some.injEq, Prod.mk.injEq] at hclaim
  obtain ⟨hp, rfl⟩ := hclaim
  refine ⟨hp, ?_⟩
  obtain ⟨bs₁, C, -⟩ := allocate_change W hd
  obtain rfl := layout_unique W'.layout C.wellFormed.layout
  have hsize := headPiece_size (b := { d with free := false }) (chosenBlock_eq_some hd).2.2.2.1
  generalize hc : headPiece { d with free := false } (roundedSize n) = c at *
  have hcaddress : c.address = d.address := by rw [← hc]; rfl
  have hcused : c.free = false := by rw [← hc]; rfl
  have hcm := (C.mem_iff c hcused).mpr (Or.inl rfl)
  have hbm := (C.mem_iff b hused).mpr (Or.inr ⟨hb, by simp⟩)
  have hbc : b ≠ c := fun heq => C.fresh c rfl b hb hused (by simp) (by rw [heq])
  have hapart := C.wellFormed.layout.tiles.disjoint hbm hcm hbc
  have W₁ := (W'.writePayload hcm (m := ByteMemory.memcpy
    (claimBlock h d (roundedSize n)).memory (d.address + 32) (b.address + 32) b.size)
    fun x hx => by rw [ByteMemory.memcpy_apply _ x (by omega), if_neg (by omega)]).1
  exact heapRelease_blocks W₁ hbm hused

theorem heapReallocate_blocks (W : WellFormed h bs) (hb : b ∈ bs) (hused : b.free = false)
    (h0 : n ≠ 0) : ∃ h', heapReallocate h (b.address + 32) n =
      some ((resize bs (b.address + 32) n).1, h') ∧
        WellFormed h' (resize bs (b.address + 32) n).2 := by
  obtain ⟨xs, ys, rfl⟩ := List.append_of_mem hb
  rw [heapReallocate_eq (layout_iff_at.mp W.layout) hused h0]
  unfold resize
  rw [cutAt_eq W.layout.tiles]
  dsimp only
  split_ifs with hbig hfit hgrow
  · exact ⟨h, rfl, W⟩
  · exact ⟨_, rfl, splitBlock_blocks W n h0 hfit⟩
  · cases ys with
    | nil => simp [growsInto] at hgrow
    | cons c zs =>
      simp only [growsInto, Bool.and_eq_true, decide_eq_true_eq] at hgrow
      have habsorb : absorbNext b (c :: zs) = merged b c :: zs := by simp [absorbNext, hgrow.1]
      rw [habsorb]
      exact ⟨_, rfl, splitBlock_blocks (merge_change W hgrow.1).1.wellFormed n h0 hgrow.2⟩
  · cases hd : chosenBlock (xs ++ b :: ys) n with
    | none =>
      obtain ⟨h', heq, -⟩ := heapAllocate_blocks W n
      rw [heapAllocate_eq W.layout, hd, Option.some.injEq, Prod.mk.injEq] at heq
      cases hallocate : allocate (xs ++ b :: ys) n with
      | mk q moved =>
        rw [hallocate] at heq
        obtain ⟨rfl, -⟩ := heq
        exact ⟨h, rfl, W⟩
    | some d =>
      obtain ⟨hq, W'⟩ := moveBlock_blocks W hb hused (by omega) hd
      cases hallocate : allocate (xs ++ b :: ys) n with
      | mk q moved =>
        rw [hallocate] at hq W'
        dsimp only at hq W'
        subst hq
        exact ⟨_, rfl, W'⟩

theorem heapCallocate_blocks (W : WellFormed h bs) (count size : ℕ) :
    ∃ h', heapCallocate h count size = some ((callocate bs count size).1, h') ∧
      WellFormed h' (callocate bs count size).2 := by
  unfold heapCallocate callocate
  split_ifs with hover
  · exact ⟨h, rfl, W⟩
  rw [mul64_eq (product_lt hover)]
  dsimp only
  obtain ⟨h₁, heq, W₁⟩ := heapAllocate_blocks W (count * size)
  rcases heapAllocate_cases W (count * size) with ⟨-, hnone⟩ | ⟨h₂, bs₂, c, hsome, C, hused, hle, -, -⟩
  · rw [heq, Option.some.injEq, Prod.mk.injEq] at hnone
    obtain ⟨hzero, rfl⟩ := hnone
    rw [heq, hzero]
    exact ⟨h₁, rfl, W₁⟩
  · rw [heq, Option.some.injEq, Prod.mk.injEq] at hsome
    obtain ⟨hp, rfl⟩ := hsome
    obtain rfl := layout_unique W₁.layout C.wellFormed.layout
    rw [heq, hp, Option.map_some]
    dsimp only
    rw [if_pos (by omega)]
    refine ⟨_, rfl, (C.writePayload hused fun x hx => ?_).wellFormed⟩
    rw [ByteMemory.memset_apply, if_neg (by omega)]

end Operations

section Runs

variable {s t : Client} {bs : List Block} {c : HeapCall} {e : Event} {r : ℕ}

theorem giveBack_live (K : Consistent s bs) {p : ℕ} (hp : (s.live p).isSome) :
    WellFormed (heapRelease s.heap p) (giveBack bs p) := by
  obtain ⟨b, hb, hused, rfl⟩ := K.live_block hp
  exact heapRelease_blocks K.wellFormed hb hused

/-- One call, on the heap and on its blocks. -/
theorem perform_blocks (K : Consistent s bs) (hl : Legal s c) :
    ∃ h', perform s.heap c = some ((blockCall bs c).1, h') ∧ WellFormed h' (blockCall bs c).2 := by
  have W := K.wellFormed
  cases c with
  | allocate n => exact heapAllocate_blocks W n
  | callocate count size => exact heapCallocate_blocks W count size
  | reallocate p n =>
    unfold perform blockCall
    dsimp only
    by_cases hnull : p = 0
    · rw [heapReallocate, if_pos hnull, if_pos hnull]
      exact heapAllocate_blocks W n
    have hlive := hl.resolve_left hnull
    rw [if_neg hnull]
    by_cases h0 : n = 0
    · rw [if_pos h0, heapReallocate, if_neg hnull, if_pos h0]
      exact ⟨_, rfl, giveBack_live K hlive⟩
    · rw [if_neg h0]
      obtain ⟨b, hb, hused, rfl⟩ := K.live_block hlive
      exact heapReallocate_blocks W hb hused h0
  | release p =>
    refine ⟨_, rfl, ?_⟩
    unfold blockCall
    dsimp only
    by_cases hnull : p = 0
    · rw [if_pos hnull, hnull, heapRelease, payloadBlock_null, if_pos (Or.inl rfl)]
      exact W
    · rw [if_neg hnull]
      exact giveBack_live K (hl.resolve_left hnull)
  | write a v =>
    obtain ⟨p, hlive, hlower, hupper⟩ := hl
    obtain ⟨b, hb, hused, rfl⟩ := K.live_block hlive
    rw [K.usable_eq hb hused] at hupper
    exact ⟨_, rfl, (W.writePayload hb fun x hx => ByteMemory.storeByte_of_ne (by omega) v).1⟩

/-- A step of the allocator: the result of the call is the one that the blocks determine. -/
def BlockStep (bs : List Block) (e : Event) (bs' : List Block) : Prop := blockCall bs e.1 = (e.2, bs')

theorem step_blocks (K : Consistent s bs) (hstep : Step s e t) :
    ∃ bs', BlockStep bs e bs' ∧ Consistent t bs' := by
  obtain ⟨bs', E⟩ := step_effect K hstep
  have K' := E.consistent K
  obtain ⟨h', hperform, W'⟩ := perform_blocks K hstep.1
  rw [(perform_of_call hstep.2).1, Option.some.injEq, Prod.mk.injEq] at hperform
  obtain ⟨hresult, hheap⟩ := hperform
  have hbs : bs' = (blockCall bs e.1).2 := layout_unique K'.wellFormed.layout (hheap ▸ W'.layout)
  exact ⟨bs', Prod.ext hresult.symm hbs.symm, K'⟩

theorem run_blocks {es : List Event} (hrun : Run Step s es t) (K : Consistent s bs) :
    ∃ bs', Run BlockStep bs es bs' ∧ Consistent t bs' := by
  have hsim : ∀ s e t bs, Consistent s bs → Step s e t → ∃ bs', BlockStep bs e bs' ∧ Consistent t bs' :=
    fun _ _ _ _ K hstep => step_blocks K hstep
  exact hrun.simulate Consistent hsim K

/-- In every run from an accepted region the heap is a first-fit allocator on its block list: it
returns the pointers that the allocator returns, and ends with its blocks. -/
theorem run_refines_blocks (r : Region) {es : List Event} (hrun : Run Step r.start es s) :
    ∃ bs, Run BlockStep [r.block] es bs ∧ Layout s.heap bs := by
  obtain ⟨bs, hblocks, K⟩ := run_blocks hrun r.start_consistent
  exact ⟨bs, hblocks, K.wellFormed.layout⟩

theorem run_refines_blocks_smallRegion : ∃ s bs,
    Run Step smallRegion.start [(.allocate 64, 4128), (.allocate 40, 4224), (.release 4128, 0),
      (.allocate 32, 4128)] s ∧
    Run BlockStep [smallRegion.block] [(.allocate 64, 4128), (.allocate 40, 4224),
      (.release 4128, 0), (.allocate 32, 4128)] bs ∧ Layout s.heap bs := by
  obtain ⟨s, hrun, -⟩ := Run.of_nextCall (s := smallRegion.start) (fun s => s.heap.allocationCount)
    (show (List.foldlM (nextCall Legal call) _ [(.allocate 64, 4128), (.allocate 40, 4224),
      (.release 4128, 0), (.allocate 32, 4128)]).map _ = some 2 by decide +kernel)
  obtain ⟨bs, hblocks, L⟩ := run_refines_blocks smallRegion hrun
  exact ⟨s, bs, hrun, hblocks, L⟩

end Runs

section Independence

/-- The event is a call, and no write of a client. -/
def IsCall (e : Event) : Bool :=
  match e.1 with
  | .write _ _ => false
  | _ => true

theorem blockStep_write {bs bs' : List Block} {e : Event} (he : IsCall e = false)
    (h : BlockStep bs e bs') : bs' = bs := by
  obtain ⟨c, r⟩ := e
  cases c with
  | write a v => exact (Prod.mk.inj h).2.symm
  | allocate _ | callocate _ _ | reallocate _ _ | release _ => cases he

theorem run_calls {bs bs' : List Block} {es : List Event} (hrun : Run BlockStep bs es bs') :
    Run BlockStep bs (es.filter IsCall) bs' := by
  induction hrun with
  | nil => exact .nil _
  | @cons bs bs₁ bs' e es head _ ih =>
    cases he : IsCall e with
    | true =>
      rw [List.filter_cons_of_pos he]
      exact .cons head ih
    | false =>
      rw [List.filter_cons_of_neg (by rw [he]; exact Bool.false_ne_true), ← blockStep_write he head]
      exact ih

/-- The allocator is a function of the calls. -/
theorem run_deterministic {bs bs₁ bs₂ : List Block} {es fs : List Event}
    (hrun : Run BlockStep bs es bs₁) (hrun' : Run BlockStep bs fs bs₂)
    (hcalls : es.map Prod.fst = fs.map Prod.fst) : es = fs ∧ bs₁ = bs₂ := by
  induction hrun generalizing fs with
  | nil =>
    obtain rfl := List.map_eq_nil_iff.mp hcalls.symm
    cases hrun'
    exact ⟨rfl, rfl⟩
  | @cons bs bs₃ bs₁ e es head _ ih =>
    cases fs with
    | nil => cases hcalls
    | cons f fs =>
      obtain ⟨hcall, hrest⟩ := List.cons.inj hcalls
      cases hrun' with
      | @cons _ bs₄ _ _ _ head' tail =>
        have hstep : (e.2, bs₃) = (f.2, bs₄) := by
          unfold BlockStep at head head'
          rw [← head, ← head', hcall]
        obtain ⟨hresult, rfl⟩ := Prod.mk.inj hstep
        obtain ⟨rfl, rfl⟩ := ih tail hrest
        exact ⟨by rw [Prod.ext hcall hresult], rfl⟩

/-- Where `heap_init` puts the heap has nothing to do with what is in memory. -/
theorem heapInit_bounds (m m' : ByteMemory.Memory) (base size : ℕ) :
    (heapInit (Heap.zero m) base size).2.heapBegin =
        (heapInit (Heap.zero m') base size).2.heapBegin ∧
      (heapInit (Heap.zero m) base size).2.heapEnd =
        (heapInit (Heap.zero m') base size).2.heapEnd := by
  unfold heapInit
  dsimp only
  split_ifs
  · exact ⟨rfl, rfl⟩
  · simp only [Heap.setSize, Heap.setPrevious, Heap.setNext, Heap.setMagic, Heap.setFree, and_self]

theorem block_of_region (r r' : Region) (hbase : r'.base = r.base) (hsize : r'.size = r.size) :
    r'.block = r.block := by
  obtain ⟨hbegin, hend⟩ := heapInit_bounds r'.memory r.memory r.base r.size
  unfold Region.block Region.start
  dsimp only
  rw [hbase, hsize, hbegin, hend]

/-- Two runs that make the same calls get the same pointers and the same block list, whatever the
memory held at first and whatever the clients write, as long as they keep to their live ranges. -/
theorem run_data_independent (r r' : Region) (hbase : r'.base = r.base) (hsize : r'.size = r.size)
    {es fs : List Event} {s t : Client} (hrun : Run Step r.start es s)
    (hrun' : Run Step r'.start fs t)
    (hcalls : (es.filter IsCall).map Prod.fst = (fs.filter IsCall).map Prod.fst) :
    es.filter IsCall = fs.filter IsCall ∧ heapStats s.heap = heapStats t.heap ∧
      ∃ bs, Layout s.heap bs ∧ Layout t.heap bs := by
  obtain ⟨bs, hblocks, K⟩ := run_blocks hrun r.start_consistent
  obtain ⟨bs', hblocks', K'⟩ := run_blocks hrun' r'.start_consistent
  rw [block_of_region r r' hbase hsize] at hblocks'
  obtain ⟨hsame, rfl⟩ := run_deterministic (run_calls hblocks) (run_calls hblocks') hcalls
  have W := K.wellFormed
  have W' := K'.wellFormed
  refine ⟨hsame, ?_, bs, W.layout, W'.layout⟩
  have hcapacity : s.heap.heapEnd - s.heap.heapBegin = t.heap.heapEnd - t.heap.heapBegin := by
    have hsum := Tiles.sum_eq W.layout.tiles
    have hsum' := Tiles.sum_eq W'.layout.tiles
    omega
  rw [heapStats_eq W.layout, heapStats_eq W'.layout, hcapacity, W.count_eq, W'.count_eq]

/-- The same region with other bytes in it. -/
def filledRegion : Region := { smallRegion with memory := fun _ => 255, accepted := by decide }

theorem run_data_independent_smallRegion : ∃ s t,
    Run Step smallRegion.start [(.allocate 64, 4128), (.reallocate 4128 96, 4128)] s ∧
    Run Step filledRegion.start [(.allocate 64, 4128), (.reallocate 4128 96, 4128)] t ∧
    heapStats s.heap = heapStats t.heap := by
  obtain ⟨s, hrun, -⟩ := Run.of_nextCall (s := smallRegion.start) (fun s => s.heap.allocationCount)
    (show (List.foldlM (nextCall Legal call) _ [(.allocate 64, 4128),
      (.reallocate 4128 96, 4128)]).map _ = some 1 by decide +kernel)
  obtain ⟨t, hrun', -⟩ := Run.of_nextCall (s := filledRegion.start) (fun s => s.heap.allocationCount)
    (show (List.foldlM (nextCall Legal call) _ [(.allocate 64, 4128),
      (.reallocate 4128 96, 4128)]).map _ = some 1 by decide +kernel)
  exact ⟨s, t, hrun, hrun',
    (run_data_independent smallRegion filledRegion rfl rfl hrun hrun' rfl).2.1⟩

end Independence

end JsOs.BlockAllocator

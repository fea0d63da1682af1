import JsOs.HeapStatistics

/-!
# Coalescing

Releases and allocations keep adjacent free blocks merged. A shrink in place does not: the
remainder that `split_block` cuts off stays unmerged when the next block is free.
-/

namespace JsOs.HeapCoalescing

open HeapModel HeapLayout HeapOperations HeapChanges HeapCalls HeapRuns TransitionRuns

theorem tiles_unique {m : ByteMemory.Memory} {a e p q : ℕ} {bs cs : List Block}
    (hb : Tiles a e bs) (hc : Tiles a e cs) (lb : Linked m p 0 bs) (lc : Linked m q 0 cs) :
    bs = cs := by
  induction bs generalizing a p q cs with
  | nil =>
    cases cs with
    | nil => rfl
    | cons c cs =>
      have hlt := hc.2.2.2.le
      have heq : a = e := hb
      omega
  | cons b bs ih =>
    cases cs with
    | nil =>
      have hlt := hb.2.2.2.le
      have heq : a = e := hc
      omega
    | cons c cs =>
      have haddress : b.address = c.address := hb.1.trans hc.1.symm
      have hheader := lb.1.symm.trans (haddress ▸ lc.1)
      simp only [Header.mk.injEq] at hheader
      have hbc : b = c := by
        cases b
        cases c
        simp_all
      subst hbc
      rw [ih hb.2.2.2 hc.2.2.2 lb.2 lc.2]

/-- The headers determine the block list. -/
theorem layout_unique {h : Heap} {bs cs : List Block} (L : Layout h bs) (L' : Layout h cs) :
    bs = cs := tiles_unique L.tiles L'.tiles L.linked L'.linked

variable {s t : Client} {bs bs' : List Block} {e : Event}

/-- A step that does not shrink a block in place beside a free one. -/
def CarefulStep (s : Client) (e : Event) (t : Client) : Prop :=
  Step s e t ∧ ∀ p n, e.1 = .reallocate p n → ¬ShrinksBesideFree s.heap p n

theorem effect_coalesced (E : Effect s bs e t bs') (hc : Coalesced bs)
    (hcareful : ∀ p n, e.1 = .reallocate p n → ¬ShrinksBesideFree s.heap p n) : Coalesced bs' := by
  cases E with
  | refused => exact hc
  | taken _ _ _ _ _ coalesced => exact coalesced hc
  | returned _ _ _ _ coalesced => exact coalesced hc
  | moved _ _ _ _ _ _ _ coalesced => exact coalesced (hcareful _ _ rfl) hc
  | written => exact hc

/-- Free blocks that are all merged are one block. -/
theorem coalesced_free {a e : ℕ} (hc : Coalesced bs) (hfree : ∀ b ∈ bs, b.free = true)
    (hne : bs ≠ []) (ht : Tiles a e bs) : bs = [⟨a, e - a - 32, true⟩] := by
  cases bs with
  | nil => exact absurd rfl hne
  | cons b bs =>
    have hb := hfree b List.mem_cons_self
    cases bs with
    | cons c bs =>
      have := (coalesced_cons.mp hc).1 c rfl
      simp [hb, hfree c (by simp)] at this
    | nil =>
      obtain ⟨haddress, -, -, htail⟩ := ht
      have hend : a + 32 + b.size = e := htail
      cases b
      simp_all
      omega

/-- In every run without such a shrink no two adjacent blocks are free, and a heap without live
pointers is the one free block that `heap_init` built. -/
theorem careful_run_coalesced (r : Region) {es : List Event} {s : Client}
    (hrun : Run CarefulStep r.start es s) (bs : List Block) (L : Layout s.heap bs) :
    Coalesced bs ∧ ((∀ p, s.live p = none) →
      bs = [⟨r.start.heap.heapBegin,
        r.start.heap.heapEnd - r.start.heap.heapBegin - headerSize, true⟩]) := by
  obtain ⟨cs, K, hc⟩ := hrun.invariant (fun s => ∃ bs, r.Holds s bs ∧ Coalesced bs)
    (fun s e t hs hstep => by
      obtain ⟨bs, K, hc⟩ := hs
      obtain ⟨bs', E⟩ := step_effect K.toConsistent hstep.1
      exact ⟨bs', K.effect E, effect_coalesced E hc hstep.2⟩)
    ⟨_, r.start_holds, List.isChain_singleton _⟩
  obtain rfl := layout_unique L K.wellFormed.layout
  refine ⟨hc, fun hdead => ?_⟩
  rw [← K.begin_eq, ← K.end_eq, headerSize_eq]
  refine coalesced_free hc (fun b hb => ?_) L.nonempty L.tiles
  by_contra hused
  have hlive := K.block_live hb (Bool.eq_false_iff.mpr hused)
  simp [hdead] at hlive

/-- Careful steps can be computed. -/
def carefulNext (s : Client) (e : Event) : Option Client :=
  match e.1 with
  | .reallocate p n => if ShrinksBesideFree s.heap p n then none else nextCall Legal call s e
  | _ => nextCall Legal call s e

theorem carefulStep_of_next (h : carefulNext s e = some t) : CarefulStep s e t := by
  unfold carefulNext at h
  split at h
  · rename_i p n heq
    split_ifs at h with hshrink
    refine ⟨callStep_of_next h, fun p' n' heq' => ?_⟩
    cases heq.symm.trans heq'
    exact hshrink
  · rename_i hother
    exact ⟨callStep_of_next h, fun p n heq => absurd heq (hother p n)⟩

theorem careful_run_coalesced_smallRegion : ∃ s,
    Run CarefulStep smallRegion.start
      [(.allocate 64, 4128), (.reallocate 4128 128, 4128), (.release 4128, 0)] s ∧
    ∀ bs, Layout s.heap bs → Coalesced bs := by
  obtain ⟨s, hrun, -⟩ := Run.of_foldlM (fun _ _ _ => carefulStep_of_next) (s := smallRegion.start)
    (fun s => s.heap.allocationCount)
    (show (List.foldlM carefulNext _ [(.allocate 64, 4128), (.reallocate 4128 128, 4128),
      (.release 4128, 0)]).map _ = some 0 by decide +kernel)
  exact ⟨s, hrun, fun bs L => (careful_run_coalesced smallRegion hrun bs L).1⟩

/-- After the only live pointer has been shrunk and released, the 448 free bytes lie in two
adjacent free blocks. -/
theorem shrink_leaves_fragments : ∃ s,
    Run Step smallRegion.start
      [(.allocate 64, 4128), (.reallocate 4128 16, 4128), (.release 4128, 0)] s ∧
    heapStats s.heap = some ⟨512, 0, 448, 384, 0⟩ ∧ s.live 4128 = none ∧
    s.heap.free 4096 = true ∧ s.heap.next 4096 = 4192 ∧ s.heap.free 4192 = true := by
  obtain ⟨s, hrun, hview⟩ := Run.of_nextCall (s := smallRegion.start)
    (fun s => (heapStats s.heap, s.live 4128, s.heap.free 4096, s.heap.next 4096,
      s.heap.free 4192))
    (show (List.foldlM (nextCall Legal call) _ [(.allocate 64, 4128), (.reallocate 4128 16, 4128),
      (.release 4128, 0)]).map _ = some (some ⟨512, 0, 448, 384, 0⟩, none, true, 4192, true) by
        decide +kernel)
  simp only [Prod.mk.injEq] at hview
  exact ⟨s, hrun, hview⟩

end JsOs.HeapCoalescing

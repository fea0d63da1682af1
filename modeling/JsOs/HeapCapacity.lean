import JsOs.AllocatorLimits
import JsOs.HeapCoalescing
import JsOs.HeapCompleteness

/-!
# How much the heap can hold

A live range wastes at most 47 bytes and a header, and between the used blocks of a coalesced heap
lies at most one free block each. So a request is served as long as what is live and a bound on what
is lost to headers, rounding and gaps leave room for it.
-/

namespace JsOs.HeapCapacity

open MachineWords HeapModel HeapLayout HeapSurgery HeapOperations HeapChanges HeapCalls HeapRuns
open HeapStatistics HeapCoalescing HeapCompleteness AllocatorBooks AllocatorLimits TransitionRuns

section Blocks

variable {bs : List Block} {b : Block}

def freeCount (bs : List Block) : ℕ := bs.countP Block.free

theorem length_eq_counts (bs : List Block) : bs.length = usedCount bs + freeCount bs := by
  have hsum := List.length_eq_countP_add_countP Block.free (l := bs)
  unfold usedCount freeCount
  simp only [Bool.not_eq_true] at hsum
  rw [hsum, Nat.add_comm]
  congr 1
  exact List.countP_congr fun b _ => by simp

/-- At most one gap before each used block, and one at the end. -/
theorem freeCount_le (hc : Coalesced bs) :
    freeCount bs ≤ usedCount bs + if (∀ b ∈ bs.head?, b.free = false) then 0 else 1 := by
  induction bs with
  | nil => exact Nat.zero_le _
  | cons b bs ih =>
    obtain ⟨hhead, htail⟩ := coalesced_cons.mp hc
    have hrest := ih htail
    unfold freeCount at hrest ⊢
    rw [usedCount_cons, List.countP_cons]
    cases hb : b.free with
    | false =>
      simp only [Bool.false_eq_true, if_false, List.head?_cons, Option.mem_some_iff, forall_eq', hb,
        if_true]
      split_ifs at hrest <;> omega
    | true =>
      rw [if_pos fun c hcmem => by simpa [hb] using hhead c hcmem] at hrest
      simp only [if_true, List.head?_cons, Option.mem_some_iff, forall_eq', hb, Bool.true_eq_false,
        if_false]
      omega

theorem freeBytes_le (bs : List Block) : freeBytes bs ≤ freeCount bs * largestFree bs := by
  induction bs with
  | nil => exact Nat.zero_le _
  | cons b bs ih =>
    unfold freeCount at ih ⊢
    rw [freeBytes_cons, largestFree_cons, List.countP_cons]
    cases b.free with
    | false => simpa using ih
    | true =>
      simp only [if_true]
      calc b.size + freeBytes bs
          ≤ max b.size (largestFree bs) + bs.countP Block.free * max b.size (largestFree bs) := by
            exact Nat.add_le_add (le_max_left _ _)
              (ih.trans (Nat.mul_le_mul_left _ (le_max_right _ _)))
        _ = (bs.countP Block.free + 1) * max b.size (largestFree bs) := by ring

end Blocks

section Waste

variable {s t : Client} {bs bs' : List Block} {e : Event}

/-- Every live range is at most 47 bytes larger than what was asked for. -/
def Snug (s : Client) (bs : List Block) : Prop :=
  ∀ b ∈ bs, b.free = false → ∀ n, s.live (b.address + 32) = some n → b.size ≤ n + 47

/-- The division test of `heap_callocate` accepts the products that fit. -/
theorem product_lt {count size : ℕ} (h : ¬(count ≠ 0 ∧ size > sizeMax / count)) :
    count * size < 2 ^ 64 := by
  rcases Nat.eq_zero_or_pos count with rfl | hpos
  · simp
  · have hle : size ≤ sizeMax / count := Nat.le_of_not_lt fun hlt => h ⟨by omega, hlt⟩
    have hproduct := (Nat.le_div_iff_mul_le hpos).mp hle
    rw [Nat.mul_comm]
    unfold sizeMax at hproduct
    omega

theorem heapCallocate_usable_le {h h' : Heap} {count size p : ℕ} (W : WellFormed h bs)
    (heq : heapCallocate h count size = some (p, h')) (hp : p ≠ 0) :
    heapUsableSize h' p ≤ count * size + 47 := by
  unfold heapCallocate at heq
  split_ifs at heq with hover
  · cases heq
    exact absurd rfl hp
  rw [mul64_eq (product_lt hover)] at heq
  dsimp only at heq
  rcases heapAllocate_cases W (count * size) with ⟨-, hnone⟩ |
    ⟨h₁, bs₁, c, hsome, C, hused, hle, hsize, -⟩
  · rw [hnone] at heq
    cases heq
    exact absurd rfl hp
  · rw [hsome, Option.map_some] at heq
    dsimp only at heq
    rw [if_pos (show c.address + 32 ≠ 0 by omega)] at heq
    cases heq
    refine usable_le (C.writePayload hused fun x hx => ?_) hused hsize
    rw [ByteMemory.memset_apply, if_neg (by omega)]

/-- Whatever a call has taken fits. -/
theorem perform_usable_le (K : Consistent s bs) {c : HeapCall} {p n : ℕ} {h' : Heap}
    (hperform : perform s.heap c = some (p, h')) (hasks : asks c = some n) (hp : p ≠ 0) :
    heapUsableSize h' p ≤ n + 47 := by
  cases c with
  | allocate size =>
    cases hasks
    exact heapAllocate_usable_le K.wellFormed hperform hp
  | callocate count size =>
    cases hasks
    exact heapCallocate_usable_le K.wellFormed hperform hp
  | reallocate pointer size =>
    simp only [asks, Option.ite_none_right_eq_some, Option.some.injEq] at hasks
    obtain ⟨rfl, rfl⟩ := hasks
    rw [perform, heapReallocate, if_pos rfl] at hperform
    exact heapAllocate_usable_le K.wellFormed hperform hp
  | release _ | write _ _ => cases hasks

theorem Snug.step (K : Consistent s bs) (S : Snug s bs) (hstep : Step s e t)
    (E : Effect s bs e t bs') : Snug t bs' := by
  have K' := E.consistent K
  have hperform := (perform_of_call hstep.2).1
  cases E with
  | refused => exact S
  | @taken c n b h' _ asked change used _ _ _ =>
    intro u hu hused k hk
    dsimp only at hk
    have hb := (change.mem_iff b used).mpr (Or.inl rfl)
    rcases (change.mem_iff u hused).mp hu with hnew | ⟨hold, -⟩
    · obtain rfl := Option.some.inj hnew
      have hle := perform_usable_le K hperform asked (by omega)
      rw [Function.update_self, Option.some.injEq] at hk
      dsimp only at hle
      rwa [K'.usable_eq hb used, hk] at hle
    · have hne : u.address ≠ b.address := change.fresh b rfl u hold hused (by simp)
      rw [Function.update_of_ne (by omega)] at hk
      exact S u hold hused k hk
  | @returned c b h' _ gives mem used change _ =>
    intro u hu hused k hk
    dsimp only at hk
    obtain ⟨hold, hne⟩ := (or_iff_right (by simp)).mp ((change.mem_iff u hused).mp hu)
    by_cases heq : u.address = b.address
    · rw [heq, Function.update_self] at hk
      cases hk
    · rw [Function.update_of_ne (by omega)] at hk
      exact S u hold hused k hk
  | @moved n b c h' _ pos mem used change used' _ _ _ =>
    intro u hu hused k hk
    dsimp only at hk
    have hc := (change.mem_iff c used').mpr (Or.inl rfl)
    rcases (change.mem_iff u hused).mp hu with hnew | ⟨hold, hne⟩
    · obtain rfl := Option.some.inj hnew
      have hle := heapReallocate_usable_le K.wellFormed mem used pos hperform (by omega)
      rw [Function.update_self, Option.some.injEq] at hk
      dsimp only at hle
      rwa [K'.usable_eq hc used', hk] at hle
    · have hfresh : u.address ≠ c.address := change.fresh c rfl u hold hused hne
      rw [Function.update_of_ne (by omega)] at hk
      by_cases heq : u.address = b.address
      · rw [heq, Function.update_self] at hk
        cases hk
      · rw [Function.update_of_ne (by omega)] at hk
        exact S u hold hused k hk
  | written => exact S

end Waste

section Capacity

variable {s : Client} {bs : List Block} {live : List (ℕ × ℕ)} {n : ℕ}

/-- A list of the live pointers, each with what was asked for, against the used blocks. -/
structure Lists (s : Client) (live : List (ℕ × ℕ)) : Prop where
  nodup : (live.map Prod.fst).Nodup
  mem_iff : ∀ p n, (p, n) ∈ live ↔ s.live p = some n

theorem Lists.perm (A : Lists s live) (K : Consistent s bs) :
    (live.map Prod.fst).Perm ((bs.filter fun b => !b.free).map fun b => b.address + 32) := by
  have hused : ((bs.filter fun b => !b.free).map fun b => b.address + 32).Nodup :=
    (tiles_nodup K.wellFormed.layout.tiles).sublist (List.filter_sublist.map _)
  refine (List.perm_ext_iff_of_nodup A.nodup hused).mpr fun p => ?_
  have hlive : (∃ n, (p, n) ∈ live) ↔ ∃ b ∈ bs, b.free = false ∧ p = b.address + 32 := by
    simp only [A.mem_iff]
    rw [← K.live_iff, Option.isSome_iff_exists]
  constructor
  · intro hp
    obtain ⟨⟨q, n⟩, hmem, rfl⟩ := List.mem_map.mp hp
    obtain ⟨b, hb, hfree, heq⟩ := hlive.mp ⟨n, hmem⟩
    exact List.mem_map.mpr ⟨b, List.mem_filter.mpr ⟨hb, by rw [hfree]; rfl⟩, heq.symm⟩
  · intro hp
    obtain ⟨b, hb, rfl⟩ := List.mem_map.mp hp
    obtain ⟨hmem, hfree⟩ := List.mem_filter.mp hb
    obtain ⟨n, hn⟩ := hlive.mpr ⟨b, hmem, by rwa [Bool.not_eq_true'] at hfree, rfl⟩
    exact List.mem_map_of_mem hn

theorem Lists.length_eq (A : Lists s live) (K : Consistent s bs) : live.length = usedCount bs := by
  have hlength := (A.perm K).length_eq
  rwa [List.length_map, List.length_map, ← List.countP_eq_length_filter] at hlength

theorem Lists.usedBytes_le (A : Lists s live) (K : Consistent s bs) (S : Snug s bs) :
    usedBytes bs ≤ (live.map fun x => x.2 + 47).sum := by
  have hvalue : live.map (fun x => x.2 + 47) =
      (live.map Prod.fst).map fun p => (s.live p).getD 0 + 47 := by
    rw [List.map_map]
    refine List.map_congr_left fun x hx => ?_
    rw [Function.comp_apply, (A.mem_iff x.1 x.2).mp hx, Option.getD_some]
  rw [hvalue, ((A.perm K).map _).sum_eq, List.map_map]
  refine List.sum_le_sum fun b hb => ?_
  obtain ⟨hmem, hused⟩ := List.mem_filter.mp hb
  rw [Bool.not_eq_true'] at hused
  obtain ⟨n, hn⟩ := Option.isSome_iff_exists.mp (K.block_live hmem hused)
  rw [Function.comp_apply, hn, Option.getD_some]
  exact S b hmem hused n hn

/-- Room for a request, whatever has been allocated and released before. -/
def Room (s : Client) (live : List (ℕ × ℕ)) (n : ℕ) : Prop :=
  32 * (2 * live.length + 1) + (live.map fun x => x.2 + 47).sum +
    (live.length + 1) * roundedSize n ≤ s.heap.heapEnd - s.heap.heapBegin

theorem largestFree_of_room (A : Lists s live) (K : Consistent s bs) (S : Snug s bs)
    (hc : Coalesced bs) (hn : n ≠ 0) (hroom : Room s live n) : roundedSize n ≤ largestFree bs := by
  have hsum := Tiles.sum_eq K.wellFormed.layout.tiles
  have hlength := length_eq_counts bs
  have hcount := A.length_eq K
  have hused := A.usedBytes_le K S
  have hfree := freeBytes_le bs
  have hgaps : freeCount bs ≤ usedCount bs + 1 :=
    (freeCount_le hc).trans (Nat.add_le_add_left (by split_ifs <;> omega) _)
  have hpos := roundedSize_pos hn
  by_contra hsmall
  -- every gap is too small
  have hlost : freeCount bs * largestFree bs < (live.length + 1) * roundedSize n :=
    calc freeCount bs * largestFree bs
        ≤ (live.length + 1) * largestFree bs := Nat.mul_le_mul_right _ (by omega)
      _ < (live.length + 1) * roundedSize n :=
          Nat.mul_lt_mul_of_pos_left (Nat.lt_of_not_le hsmall) (Nat.succ_pos _)
  unfold Room at hroom
  omega

/-- The size that a call asks for. -/
def requests : HeapCall → Option ℕ
  | .allocate size => some size
  | .callocate count size => some (count * size)
  | .reallocate _ size => some size
  | _ => none

theorem largestFree_le (bs : List Block) : largestFree bs ≤ freeBytes bs := by
  induction bs with
  | nil => exact le_refl 0
  | cons b bs ih =>
    rw [largestFree_cons, freeBytes_cons]
    cases b.free with
    | false => simpa using ih
    | true => exact max_le (Nat.le_add_right _ _) (ih.trans (Nat.le_add_left _ _))

theorem call_succeeds (K : Consistent s bs) (hn : n ≠ 0) (hfits : roundedSize n ≤ largestFree bs)
    {c : HeapCall} (hl : Legal s c) (hc : requests c = some n) :
    ∃ p t, call s c = some (p, t) ∧ p ≠ 0 := by
  have L := K.wellFormed.layout
  have hsmall : ¬sizeMax - 15 < n := by
    have hr := roundedSize_spec n
    have hlargest := largestFree_le bs
    have hsum := Tiles.sum_eq L.tiles
    have hend := L.end_lt
    unfold sizeMax
    omega
  have hallocate : ∃ p h', heapAllocate s.heap n = some (p, h') ∧ p ≠ 0 := by
    obtain ⟨p, h', heq, hnull, -⟩ := heapAllocate_complete L n
    refine ⟨p, h', heq, fun hp => ?_⟩
    rcases hnull.mp hp with h | h | h
    · exact hn h
    · exact hsmall h
    · exact absurd hfits (Nat.not_le.mpr h)
  suffices hperform : ∃ p h', perform s.heap c = some (p, h') ∧ p ≠ 0 by
    obtain ⟨p, h', heq, hp⟩ := hperform
    exact ⟨p, _, by rw [call, heq]; rfl, hp⟩
  cases c with
  | allocate size =>
    cases hc
    exact hallocate
  | callocate count size =>
    cases hc
    obtain ⟨p, h', heq, hp⟩ := hallocate
    have hproduct : count * size < 2 ^ 64 := by
      unfold sizeMax at hsmall
      omega
    have hguard : ¬(count ≠ 0 ∧ size > sizeMax / count) := by
      rintro ⟨hcount, hlt⟩
      have hover := (Nat.div_lt_iff_lt_mul (Nat.pos_of_ne_zero hcount)).mp hlt
      rw [Nat.mul_comm] at hover
      unfold sizeMax at hover
      omega
    refine ⟨p, { h' with memory := ByteMemory.memset h'.memory p 0 (count * size) }, ?_, hp⟩
    rw [perform, heapCallocate, if_neg hguard, mul64_eq hproduct]
    dsimp only
    rw [heq, Option.map_some]
    dsimp only
    rw [if_pos hp]
  | reallocate pointer size =>
    cases hc
    by_cases hnull : pointer = 0
    · rw [perform, heapReallocate, if_pos hnull]
      exact hallocate
    obtain ⟨b, hb, hused, rfl⟩ := K.live_block (hl.resolve_left hnull)
    obtain ⟨xs, ys, rfl⟩ := List.append_of_mem hb
    obtain ⟨p, h', heq, hnone, -⟩ := heapReallocate_complete (layout_iff_at.mp L) hused hn
    refine ⟨p, h', heq, fun hp => ?_⟩
    rcases hnone.mp hp with h | ⟨-, -, h⟩
    · exact hsmall h
    · exact absurd hfits (Nat.not_le.mpr h)
  | release _ | write _ _ => cases hc

/-- After any calls that do not shrink a block in place beside a free one, a request is served, by
whichever call it is made, as long as there is room for it beside what is live. -/
theorem careful_run_serves (r : Region) {es : List Event} (hrun : Run CarefulStep r.start es s)
    (A : Lists s live) (hn : n ≠ 0) (hroom : Room s live n) {c : HeapCall} (hl : Legal s c)
    (hc : requests c = some n) : ∃ p t, call s c = some (p, t) ∧ p ≠ 0 := by
  obtain ⟨bs, K, hco, S⟩ := hrun.invariant
    (fun s => ∃ bs, r.Holds s bs ∧ Coalesced bs ∧ Snug s bs)
    (fun s e t hs hstep => by
      obtain ⟨bs, K, hco, S⟩ := hs
      obtain ⟨bs', E⟩ := step_effect K.toConsistent hstep.1
      exact ⟨bs', K.effect E, effect_coalesced E hco hstep.2,
        S.step K.toConsistent hstep.1 E⟩)
    ⟨_, r.start_holds, List.isChain_singleton _, fun b hb hused => by
      obtain rfl := List.mem_singleton.mp hb
      cases hused⟩
  exact call_succeeds K.toConsistent hn
    (largestFree_of_room A K.toConsistent S hco hn hroom) hl hc

/-- A hundred bytes beside the first allocation. -/
theorem careful_run_serves_smallRegion : ∃ s,
    Run CarefulStep smallRegion.start [(.allocate 64, 4128)] s ∧
      ∃ p t, call s (.reallocate 4128 100) = some (p, t) ∧ p ≠ 0 := by
  have hcall : (call smallRegion.start (.allocate 64)).map (·.1) = some 4128 := by decide +kernel
  obtain ⟨⟨_, s⟩, hfirst, rfl⟩ := Option.map_eq_some_iff.mp hcall
  have hrun : Run CarefulStep smallRegion.start [(.allocate 64, 4128)] s :=
    .cons ⟨⟨trivial, hfirst⟩, fun p n h => by cases h⟩ (.nil s)
  have hlive : s.live = Function.update (fun _ => none) 4128 (some 64) :=
    congrArg Client.live (perform_of_call hfirst).2
  have hregion : s.heap.heapEnd - s.heap.heapBegin = 512 := by
    obtain ⟨bs, K⟩ := smallRegion.run_holds (hrun.mono fun _ _ _ h => h.1)
    rw [K.begin_eq, K.end_eq]
    rfl
  have hlists : Lists s [(4128, 64)] := ⟨List.nodup_singleton _, fun p n => by
    rw [hlive, List.mem_singleton, Prod.mk.injEq]
    by_cases hp : p = 4128
    · rw [hp, Function.update_self, Option.some.injEq]
      exact ⟨fun h => h.2.symm, fun h => ⟨rfl, h.symm⟩⟩
    · rw [Function.update_of_ne hp]
      exact iff_of_false (fun h => hp h.1) fun h => by cases h⟩
  refine ⟨s, hrun, careful_run_serves smallRegion hrun hlists (show 100 ≠ 0 by decide) ?_
    (Or.inr ?_) rfl⟩
  · unfold Room
    rw [hregion]
    decide
  · rw [hlive, Function.update_self]
    rfl

end Capacity

end JsOs.HeapCapacity

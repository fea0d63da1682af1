import JsOs.AllocatorBooks

/-!
# The memory limit of the JS allocator

The limit is compared with the size that is asked for, but the books are charged with the size of
the block. A block is at most 47 bytes larger than what was asked for: 15 bytes of rounding and 32
that are too few to split off.
-/

namespace JsOs.AllocatorLimits

open MachineWords HeapModel HeapLayout HeapOperations HeapChanges HeapCalls HeapRuns
open AllocatorBooks TransitionRuns

section Blocks

variable {h h' : Heap} {bs : List Block} {b : Block} {n p : ℕ}

theorem usable_le {bs' : List Block} {c : Block} {removed : Option Block}
    (C : Change h bs h' bs' removed (some c)) (hused : c.free = false)
    (hsize : c.size < roundedSize n + 48) : heapUsableSize h' (c.address + 32) ≤ n + 47 := by
  have hc : c ∈ bs' := (C.mem_iff c hused).mpr (Or.inl rfl)
  have L := C.wellFormed.layout
  have htile := L.tiles.mem hc
  have hrounded := roundedSize_spec n
  rw [heapUsableSize_of_mem L hc hused]
  omega

theorem heapAllocate_usable_le (W : WellFormed h bs) (heq : heapAllocate h n = some (p, h'))
    (hp : p ≠ 0) : heapUsableSize h' p ≤ n + 47 := by
  rcases heapAllocate_cases W n with ⟨-, hnone⟩ | ⟨h'', bs', c, hsome, C, hused, -, hsize, -⟩
  · rw [hnone] at heq
    cases heq
    exact absurd rfl hp
  · rw [hsome] at heq
    cases heq
    exact usable_le C hused hsize

theorem heapReallocate_usable_le (W : WellFormed h bs) (hb : b ∈ bs) (hused : b.free = false)
    (hn : n ≠ 0) (heq : heapReallocate h (b.address + 32) n = some (p, h')) (hp : p ≠ 0) :
    heapUsableSize h' p ≤ n + 47 := by
  rcases heapReallocate_cases W hb hused hn with
    hnone | ⟨h'', bs', c, hsome, C, hcused, -, hsize, -⟩
  · rw [hnone] at heq
    cases heq
    exact absurd rfl hp
  · rw [hsome] at heq
    cases heq
    exact usable_le C hcused hsize

end Blocks

section Calls

variable {s t : System} {bs : List Block} {c : SystemCall} {limit n r : ℕ}

/-- The books are exact and the total is within the limit, or the overshoot of one call. -/
structure Within (limit : ℕ) (s : System) : Prop where
  books : ∃ bs, Books s bs
  limit_eq : s.state.mallocLimit = limit
  size_le : s.state.mallocSize ≤ limit + 47

/-- What `runtime_malloc` does to the total. -/
theorem runtimeMalloc_size_le (W : WellFormed s.client.heap bs) {state : JSMallocState} {h : Heap}
    (hlimit : s.state.mallocLimit ≤ 2 ^ 63)
    (heq : runtimeMalloc s.state s.client.heap n = some (r, state, h)) :
    state.mallocLimit = s.state.mallocLimit ∧
      (state = s.state ∨ state.mallocSize ≤ s.state.mallocLimit + 47) ∧
      (s.state.mallocLimit < s.state.mallocSize → r = 0 ∧ state = s.state) := by
  unfold runtimeMalloc at heq
  split_ifs at heq with hguard
  · cases heq
    exact ⟨rfl, Or.inl rfl, fun _ => ⟨rfl, rfl⟩⟩
  · obtain ⟨⟨p, h'⟩, hallocate, heq⟩ := Option.map_eq_some_iff.mp heq
    dsimp only at heq
    split_ifs at heq with hp
    · cases heq
      exact ⟨rfl, Or.inl rfl, fun _ => ⟨rfl, rfl⟩⟩
    · cases heq
      have husable := heapAllocate_usable_le W hallocate hp
      simp only [not_or, not_lt, gt_iff_lt] at hguard
      have hroom : sub64 s.state.mallocLimit s.state.mallocSize =
          s.state.mallocLimit - s.state.mallocSize := sub64_eq hguard.2.1 (by omega)
      rw [hroom] at hguard
      refine ⟨rfl, Or.inr ?_, fun hover => absurd hguard.2.1 (not_le.mpr hover)⟩
      dsimp only
      rw [add64_eq (by omega)]
      omega

/-- What `runtime_realloc` does to the total, for a pointer of the engine. -/
theorem runtimeRealloc_size_le (B : Books s bs) {p : ℕ} (hp : p ∈ s.owned) (hn : n ≠ 0)
    {state : JSMallocState} {h : Heap} (hlimit : s.state.mallocLimit ≤ 2 ^ 63)
    (heq : runtimeRealloc s.state s.client.heap p n = some (r, state, h)) :
    state.mallocLimit = s.state.mallocLimit ∧
      (state = s.state ∨ state.mallocSize ≤ s.state.mallocLimit + 47) := by
  obtain ⟨-, hsize, -, hsize_lt⟩ := B.guards hp
  obtain ⟨b, hb, hused, rfl⟩ := B.consistent.live_block (B.owned_live p hp)
  rw [B.runtimeRealloc_eq hp, runtimeReallocUnguarded, if_neg hn] at heq
  dsimp only at heq
  rw [sub64_eq hsize hsize_lt] at heq
  split_ifs at heq with hguard
  · cases heq
    exact ⟨rfl, Or.inl rfl⟩
  · obtain ⟨⟨q, h'⟩, hreallocate, heq⟩ := Option.map_eq_some_iff.mp heq
    dsimp only at heq
    split_ifs at heq with hq
    · cases heq
      exact ⟨rfl, Or.inl rfl⟩
    · cases heq
      have husable := heapReallocate_usable_le B.consistent.wellFormed hb hused hn hreallocate hq
      simp only [not_or, not_lt, gt_iff_lt] at hguard
      have hroom := sub64_eq hguard.1 (show s.state.mallocLimit < 2 ^ 64 by omega)
      rw [hroom] at hguard
      refine ⟨rfl, Or.inr ?_⟩
      dsimp only
      rw [add64_eq (by omega)]
      omega

theorem runtimeFree_size_le (state : JSMallocState) (h : Heap) (p : ℕ)
    (hsize : state.mallocSize < 2 ^ 64) :
    (runtimeFree state h p).1.mallocLimit = state.mallocLimit ∧
      (runtimeFree state h p).1.mallocSize ≤ state.mallocSize := by
  have hsub (v k : ℕ) (hv : v < 2 ^ 64) (hk : k ≤ v) : sub64 v k ≤ v := by
    rw [sub64_eq hk hv]
    exact Nat.sub_le ..
  unfold runtimeFree
  by_cases hp : p = 0
  · rw [if_pos hp]
    exact ⟨rfl, le_refl _⟩
  · rw [if_neg hp]
    dsimp only
    generalize heapUsableSize h p = usable
    split_ifs with hcount husable husable
    · exact ⟨rfl, hsub _ _ hsize husable⟩
    · exact ⟨rfl, le_refl _⟩
    · exact ⟨rfl, hsub _ _ hsize husable⟩
    · exact ⟨rfl, le_refl _⟩

theorem Within.size_lt (W : Within limit s) : s.state.mallocSize < 2 ^ 64 := by
  obtain ⟨bs, B⟩ := W.books
  rw [B.size_eq]
  exact (owned_bound B.consistent B.owned_live).2

/-- One call, but no change of the limit. -/
theorem Within.call (W : Within limit s) (hlimit : limit ≤ 2 ^ 63)
    (hfixed : ∀ size, c ≠ .limit size) (hlegal : s.Legal c) (hcall : s.call c = some (r, t)) :
    t.state.mallocLimit = limit ∧ t.state.mallocSize ≤ limit + 47 := by
  obtain ⟨bs, B⟩ := W.books
  have hL := W.limit_eq
  have hsize := W.size_le
  obtain ⟨⟨r', state, h⟩, hperform, heq⟩ := Option.map_eq_some_iff.mp hcall
  cases heq
  dsimp only
  have hkeep : state.mallocLimit = s.state.mallocLimit ∧
      (state = s.state ∨ state.mallocSize ≤ s.state.mallocLimit + 47) →
      state.mallocLimit = limit ∧ state.mallocSize ≤ limit + 47 := by
    rintro ⟨hlimit', rfl | hle⟩
    · exact ⟨hL, hsize⟩
    · exact ⟨hlimit'.trans hL, hL ▸ hle⟩
  have hfree (p : ℕ) (hstate : state = (runtimeFree s.state s.client.heap p).1) :
      state.mallocLimit = limit ∧ state.mallocSize ≤ limit + 47 := by
    have hle := runtimeFree_size_le s.state s.client.heap p W.size_lt
    rw [hstate]
    exact ⟨hle.1.trans hL, hle.2.trans hsize⟩
  have hmalloc (n : ℕ) (hstate : runtimeMalloc s.state s.client.heap n = some (r, state, h)) :
      state.mallocLimit = limit ∧ state.mallocSize ≤ limit + 47 := by
    obtain ⟨h₁, h₂, -⟩ := runtimeMalloc_size_le B.consistent.wellFormed (hL ▸ hlimit) hstate
    exact hkeep ⟨h₁, h₂⟩
  cases c with
  | malloc n => exact hmalloc n hperform
  | realloc p n =>
    unfold performCall at hperform
    dsimp only at hperform
    rcases hlegal with rfl | hp
    · rw [runtimeRealloc, if_pos rfl] at hperform
      exact hmalloc n hperform
    by_cases hn : n = 0
    · rw [runtimeRealloc, if_neg (B.nonnull hp), if_pos hn] at hperform
      cases hperform
      exact hfree p rfl
    · exact hkeep (runtimeRealloc_size_le B hp hn (hL ▸ hlimit) hperform)
  | free p =>
    cases hperform
    exact hfree p rfl
  | other c =>
    obtain ⟨x, -, heq⟩ := Option.map_eq_some_iff.mp hperform
    cases heq
    exact ⟨hL, hsize⟩
  | limit n => exact absurd rfl (hfixed n)

theorem Within.step (W : Within limit s) (hlimit : limit ≤ 2 ^ 63) {e : SystemEvent}
    (hfixed : ∀ size, e.1 ≠ .limit size) (hstep : System.Step s e t) : Within limit t := by
  obtain ⟨bs, B⟩ := W.books
  obtain ⟨bs', B', -⟩ := B.step hstep
  obtain ⟨hL, hsize⟩ := W.call hlimit hfixed hstep.1 hstep.2
  exact ⟨⟨bs', B'⟩, hL, hsize⟩

/-- The calls that end in `runtime_malloc`. -/
def IsMalloc : SystemCall → Prop
  | .malloc _ => True
  | .realloc p _ => p = 0
  | _ => False

/-- The calls of the engine that can lower its total. -/
def GivesBack : SystemCall → Prop
  | .free p => p ≠ 0
  | .realloc p _ => p ≠ 0
  | _ => False

/-- Above the limit nothing but `runtime_free` and `runtime_realloc` of a block changes the
books. -/
theorem Within.call_above (W : Within limit s) (hlimit : limit ≤ 2 ^ 63)
    (habove : limit < s.state.mallocSize) (hfixed : ∀ size, c ≠ .limit size)
    (hcall : s.call c = some (r, t)) :
    (IsMalloc c → r = 0) ∧ (¬ GivesBack c → t.state = s.state) := by
  obtain ⟨bs, B⟩ := W.books
  have hL := W.limit_eq
  obtain ⟨⟨r', state, h⟩, hperform, heq⟩ := Option.map_eq_some_iff.mp hcall
  cases heq
  dsimp only
  have hmalloc (n : ℕ) (hstate : runtimeMalloc s.state s.client.heap n = some (r, state, h)) :
      r = 0 ∧ state = s.state := by
    obtain ⟨-, -, hfail⟩ := runtimeMalloc_size_le B.consistent.wellFormed (hL ▸ hlimit) hstate
    exact hfail (hL ▸ habove)
  cases c with
  | malloc n => exact ⟨fun _ => (hmalloc n hperform).1, fun _ => (hmalloc n hperform).2⟩
  | realloc p n =>
    by_cases hp : p = 0
    · subst hp
      replace hperform : runtimeRealloc s.state s.client.heap 0 n = some (r, state, h) := hperform
      rw [runtimeRealloc, if_pos rfl] at hperform
      exact ⟨fun _ => (hmalloc n hperform).1, fun _ => (hmalloc n hperform).2⟩
    · exact ⟨fun h => absurd h hp, fun h => absurd hp h⟩
  | free p =>
    refine ⟨fun h => absurd h id, fun h => ?_⟩
    have hp : p = 0 := not_not.mp h
    have hfree : (runtimeFree s.state s.client.heap p).1 = s.state := by
      rw [runtimeFree, if_pos hp]
    simp only [performCall, Option.some.injEq, Prod.mk.injEq] at hperform
    rw [← hperform.2.1, hfree]
  | other c =>
    obtain ⟨x, -, heq⟩ := Option.map_eq_some_iff.mp hperform
    cases heq
    exact ⟨fun h => absurd h id, fun _ => rfl⟩
  | limit n => exact absurd rfl (hfixed n)

theorem start_within (r : Region) (limit : ℕ) : Within limit (System.start r limit) :=
  ⟨⟨_, start_books r limit⟩, rfl, Nat.zero_le _⟩

theorem Within.run (W : Within limit s) (hlimit : limit ≤ 2 ^ 63) {es : List SystemEvent}
    (hfixed : ∀ e ∈ es, ∀ size, e.1 ≠ .limit size) (hrun : Run System.Step s es t) :
    Within limit t := by
  induction hrun with
  | nil => exact W
  | cons head _ ih =>
    exact ih (W.step hlimit (hfixed _ List.mem_cons_self) head)
      fun e he => hfixed e (List.mem_cons_of_mem _ he)

end Calls

/-- The total exceeds a limit that is not changed by at most 47 bytes; and while it does,
`runtime_malloc` fails, until the engine gives memory back and the total is within the limit
again. -/
theorem run_overshoot (r : Region) {limit : ℕ} (hlimit : limit ≤ 2 ^ 63)
    {es : List SystemEvent} (hfixed : ∀ e ∈ es, ∀ size, e.1 ≠ .limit size) {s : System}
    (hrun : Run System.Step (System.start r limit) es s) :
    s.state.mallocSize ≤ limit + 47 ∧
    (limit < s.state.mallocSize →
      ∀ es' t c p u, (∀ e ∈ es', ∀ size, e.1 ≠ .limit size) → Run System.Step s es' t →
        IsMalloc c → System.Step t (c, p) u → p ≠ 0 →
        ∃ es₁ e es₂ v w, es' = es₁ ++ e :: es₂ ∧ Run System.Step s es₁ v ∧ System.Step v e w ∧
          GivesBack e.1 ∧ limit < v.state.mallocSize ∧ w.state.mallocSize ≤ limit) := by
  have W := (start_within r limit).run hlimit hfixed hrun
  refine ⟨W.size_le, fun habove es' t c p u hfixed' hrun' hmalloc hstep hp => ?_⟩
  have hback : ¬ limit < t.state.mallocSize := by
    intro habove'
    have W' := W.run hlimit hfixed' hrun'
    have hc : ∀ size, c ≠ .limit size := by
      rintro size rfl
      exact hmalloc
    exact hp ((W'.call_above hlimit habove' hc hstep.2).1 hmalloc)
  obtain ⟨es₁, e, es₂, v, w, rfl, hrun₁, hleave, hv, hw⟩ :=
    hrun'.exists_leaving (P := fun s => limit < s.state.mallocSize) habove hback
  have hfixed₁ : ∀ e ∈ es₁, ∀ size, e.1 ≠ .limit size := fun e he =>
    hfixed' e (List.mem_append_left _ he)
  have V := W.run hlimit hfixed₁ hrun₁
  refine ⟨es₁, e, es₂, v, w, rfl, hrun₁, hleave, ?_, hv, not_lt.mp hw⟩
  by_contra hkeep
  have hfixed_e := hfixed' e (List.mem_append_right _ List.mem_cons_self)
  have hstate := (V.call_above hlimit hv hfixed_e hleave.2).2 hkeep
  exact hw (hstate ▸ hv)

/-- The bound is attained: 97 bytes are asked for, 112 are needed, and the free block of 144 is not
split. -/
theorem run_overshoot_smallRegion : ∃ s : System,
    Run System.Step (System.start smallRegion 97)
      [(.other (.allocate 130), 4128), (.other (.allocate 8), 4304), (.other (.release 4128), 0),
        (.malloc 97, 4128), (.malloc 1, 0)] s ∧
      s.state.mallocSize = 97 + 47 ∧ s.state.mallocSize ≤ 97 + 47 := by
  obtain ⟨s, hrun, hsize⟩ := Run.of_nextCall (s := System.start smallRegion 97)
    (fun s => s.state.mallocSize) (show (List.foldlM (nextCall System.Legal System.call) _
      [(.other (.allocate 130), 4128), (.other (.allocate 8), 4304), (.other (.release 4128), 0),
        (.malloc 97, 4128), (.malloc 1, 0)]).map _ = some (97 + 47) by decide +kernel)
  exact ⟨s, hrun, hsize, (run_overshoot smallRegion (by decide) (by simp) hrun).1⟩

end JsOs.AllocatorLimits

import JsOs.HeapStore
import Mathlib.Algebra.BigOperators.Group.Finset.Basic
import Mathlib.Algebra.Order.BigOperators.Group.Finset

/-!
# The books of the JS allocator

`runtime_malloc`, `runtime_free` and `runtime_realloc` keep a count and a byte total beside the
heap. Both are read off from heap headers, so they are exact only because no call of any other
client changes the size of a block that the engine holds.
-/

namespace JsOs.AllocatorBooks

open ByteMemory MachineWords HeapModel HeapLayout HeapOperations HeapChanges HeapRuns
open HeapStatistics HeapStore TransitionRuns

structure JSMallocState where
  mallocCount : ℕ
  mallocSize : ℕ
  mallocLimit : ℕ
  deriving DecidableEq, Repr

def runtimeMalloc (state : JSMallocState) (h : Heap) (size : ℕ) :
    Option (ℕ × JSMallocState × Heap) :=
  if size = 0 ∨ state.mallocSize > state.mallocLimit ∨
      size > sub64 state.mallocLimit state.mallocSize then some (0, state, h)
  else
    (heapAllocate h size).map fun (pointer, h) =>
      if pointer = 0 then (0, state, h)
      else
        let usable := heapUsableSize h pointer
        (pointer, { state with
          mallocCount := add64 state.mallocCount 1
          mallocSize := add64 state.mallocSize usable }, h)

def runtimeFree (state : JSMallocState) (h : Heap) (pointer : ℕ) : JSMallocState × Heap :=
  if pointer = 0 then (state, h)
  else
    let usable := heapUsableSize h pointer
    let state := if state.mallocCount ≠ 0 then
        { state with mallocCount := sub64 state.mallocCount 1 } else state
    let state := if usable ≤ state.mallocSize then
        { state with mallocSize := sub64 state.mallocSize usable } else state
    (state, heapRelease h pointer)

def runtimeRealloc (state : JSMallocState) (h : Heap) (pointer size : ℕ) :
    Option (ℕ × JSMallocState × Heap) :=
  if pointer = 0 then runtimeMalloc state h size
  else if size = 0 then
    let (state, h) := runtimeFree state h pointer
    some (0, state, h)
  else
    let oldSize := heapUsableSize h pointer
    let baseSize := if state.mallocSize ≥ oldSize then sub64 state.mallocSize oldSize else 0
    if baseSize > state.mallocLimit ∨ size > sub64 state.mallocLimit baseSize then
      some (0, state, h)
    else
      (heapReallocate h pointer size).map fun (replacement, h) =>
        if replacement = 0 then (0, state, h)
        else (replacement,
          { state with mallocSize := add64 baseSize (heapUsableSize h replacement) }, h)

/-- `runtime_free` of a pointer that is not null, without its two saturating guards. -/
def runtimeFreeUnguarded (state : JSMallocState) (h : Heap) (pointer : ℕ) : JSMallocState × Heap :=
  ({ state with
    mallocCount := sub64 state.mallocCount 1
    mallocSize := sub64 state.mallocSize (heapUsableSize h pointer) }, heapRelease h pointer)

/-- `runtime_realloc` of a pointer that is not null, without any saturating guard. -/
def runtimeReallocUnguarded (state : JSMallocState) (h : Heap) (pointer size : ℕ) :
    Option (ℕ × JSMallocState × Heap) :=
  if size = 0 then
    let (state, h) := runtimeFreeUnguarded state h pointer
    some (0, state, h)
  else
    let baseSize := sub64 state.mallocSize (heapUsableSize h pointer)
    if baseSize > state.mallocLimit ∨ size > sub64 state.mallocLimit baseSize then
      some (0, state, h)
    else
      (heapReallocate h pointer size).map fun (replacement, h) =>
        if replacement = 0 then (0, state, h)
        else (replacement,
          { state with mallocSize := add64 baseSize (heapUsableSize h replacement) }, h)

/-- All clients of the heap, the engine's books, and for the record the live pointers that the
engine has obtained. -/
structure System where
  client : Client
  state : JSMallocState
  owned : Finset ℕ

/-- A call of the engine, a call of another client, or a new memory limit. -/
inductive SystemCall where
  | malloc (size : ℕ)
  | realloc (pointer size : ℕ)
  | free (pointer : ℕ)
  | other (c : HeapCall)
  | limit (size : ℕ)
  deriving DecidableEq, Repr

def performCall (state : JSMallocState) (h : Heap) :
    SystemCall → Option (ℕ × JSMallocState × Heap)
  | .malloc size => runtimeMalloc state h size
  | .realloc pointer size => runtimeRealloc state h pointer size
  | .free pointer =>
    let (state, h) := runtimeFree state h pointer
    some (0, state, h)
  | .other c => (perform h c).map fun (result, h) => (result, state, h)
  | .limit size => some (0, { state with mallocLimit := size }, h)

/-- The live pointers afterwards, as if the heap had been called directly. -/
def accountCall (live : ℕ → Option ℕ) (result : ℕ) : SystemCall → ℕ → Option ℕ
  | .malloc size => account live result (.allocate size)
  | .realloc pointer size => account live result (.reallocate pointer size)
  | .free pointer => account live result (.release pointer)
  | .other c => account live result c
  | .limit _ => live

/-- The engine's pointers after a call that returned `result`. -/
def own (owned : Finset ℕ) (result : ℕ) : SystemCall → Finset ℕ
  | .malloc _ => if result = 0 then owned else insert result owned
  | .realloc pointer size =>
    if pointer = 0 then if result = 0 then owned else insert result owned
    else if size = 0 then owned.erase pointer
    else if result = 0 then owned
    else insert result (owned.erase pointer)
  | .free pointer => owned.erase pointer
  | .other _ => owned
  | .limit _ => owned

/-- The pointer that a heap call is about. -/
def pointerOf : HeapCall → Option ℕ
  | .reallocate pointer _ => some pointer
  | .release pointer => some pointer
  | _ => none

/-- The engine passes null or its own pointers, the others null or live pointers that are not
the engine's. -/
def System.Legal (s : System) : SystemCall → Prop
  | .malloc _ => True
  | .realloc pointer _ => pointer = 0 ∨ pointer ∈ s.owned
  | .free pointer => pointer = 0 ∨ pointer ∈ s.owned
  | .other c => HeapRuns.Legal s.client c ∧ ∀ p, pointerOf c = some p → p ∉ s.owned
  | .limit _ => True

def System.call (s : System) (c : SystemCall) : Option (ℕ × System) :=
  (performCall s.state s.client.heap c).map fun (result, state, h) =>
    (result, ⟨⟨h, accountCall s.client.live result c⟩, state, own s.owned result c⟩)

abbrev SystemEvent := SystemCall × ℕ

def System.Step : System → SystemEvent → System → Prop := CallStep System.Legal System.call

instance (s : System) : ∀ c, Decidable (s.Legal c)
  | .malloc _ => .isTrue trivial
  | .realloc p _ => inferInstanceAs (Decidable (p = 0 ∨ p ∈ s.owned))
  | .free p => inferInstanceAs (Decidable (p = 0 ∨ p ∈ s.owned))
  | .other c => decidable_of_iff
      (HeapRuns.Legal s.client c ∧ ∀ p ∈ (pointerOf c).toList, p ∉ s.owned)
      (by simp [System.Legal])
  | .limit _ => .isTrue trivial

/-- An engine that has allocated nothing yet. -/
def System.start (r : Region) (limit : ℕ) : System := ⟨r.start, ⟨0, 0, limit⟩, ∅⟩

/-- The bytes behind the engine's pointers. -/
def usableSum (h : Heap) (owned : Finset ℕ) : ℕ := ∑ p ∈ owned, heapUsableSize h p

/-- The books say what the headers say. -/
structure Books (s : System) (bs : List Block) : Prop where
  consistent : Consistent s.client bs
  owned_live : ∀ p ∈ s.owned, (s.client.live p).isSome
  count_eq : s.state.mallocCount = s.owned.card
  size_eq : s.state.mallocSize = usableSum s.client.heap s.owned

section Sums

variable {s t : Client} {bs bs' : List Block} {owned : Finset ℕ} {p : ℕ}

theorem tiles_nodup {a e : ℕ} (h : Tiles a e bs) : (bs.map fun b => b.address + 32).Nodup := by
  induction bs generalizing a with
  | nil => simp
  | cons b bs ih =>
    obtain ⟨hb, -, hsize, hrest⟩ := h
    refine List.nodup_cons.mpr ⟨fun hmem => ?_, ih hrest⟩
    obtain ⟨c, hc, heq⟩ := List.mem_map.mp hmem
    have hlower := (hrest.mem hc).1
    dsimp only at heq
    omega

/-- Distinct live pointers are payloads of distinct used blocks. -/
theorem owned_bound (K : Consistent s bs) (hlive : ∀ p ∈ owned, (s.live p).isSome) :
    owned.card < 2 ^ 64 ∧ usableSum s.heap owned < 2 ^ 64 := by
  have L := K.wellFormed.layout
  have hnodup : ((bs.filter fun b => !b.free).map fun b => b.address + 32).Nodup :=
    (tiles_nodup L.tiles).sublist (List.filter_sublist.map _)
  have hsub : owned ⊆ ((bs.filter fun b => !b.free).map fun b => b.address + 32).toFinset := by
    intro p hp
    obtain ⟨b, hb, hused, rfl⟩ := K.live_block (hlive p hp)
    simp only [List.mem_toFinset, List.mem_map, List.mem_filter, Bool.not_eq_true']
    exact ⟨b, ⟨hb, hused⟩, rfl⟩
  have hlen := length_lt_walkFuel L
  have hsum := Tiles.sum_eq L.tiles
  have hend := L.end_lt
  constructor
  · have hcard := Finset.card_le_card hsub
    have hlist := List.toFinset_card_le ((bs.filter fun b => !b.free).map fun b => b.address + 32)
    have hfilter := List.length_filter_le (fun b : Block => !b.free) bs
    rw [List.length_map] at hlist
    unfold walkFuel at hlen
    omega
  · have hle : usableSum s.heap owned ≤ usedBytes bs := by
      refine (Finset.sum_le_sum_of_subset hsub).trans ?_
      rw [List.sum_toFinset _ hnodup, List.map_map]
      apply le_of_eq
      unfold usedBytes
      congr 1
      refine List.map_congr_left fun b hb => ?_
      simp only [List.mem_filter, Bool.not_eq_true'] at hb
      exact K.usable_eq hb.1 hb.2
    omega

end Sums

section Effects

variable {m m' : ℕ → Option Extent} {s t : Client} {bs bs' : List Block} {c : HeapCall}
variable {p q r : ℕ}

/-- A call about another pointer leaves a range where it is, with its length. -/
theorem extentStep_other {x : Extent} (E : ExtentStep m (c, r) m') (hq : m q = some x)
    (hne : ∀ p, pointerOf c = some p → q ≠ p) :
    (r ≠ 0 → q ≠ r) ∧ ∃ y, m' q = some y ∧ y.bytes.length = x.bytes.length := by
  cases E with
  | refused => exact ⟨fun h => absurd rfl h, x, hq, rfl⟩
  | taken asked pos fresh =>
    have hqr : q ≠ r := fun heq => by simp [← heq, hq] at fresh
    exact ⟨fun _ => hqr, x, by rw [Function.update_of_ne hqr, hq], rfl⟩
  | @returned c p y gives live =>
    have hqp : q ≠ p := by
      rcases gives with rfl | rfl <;> exact hne p rfl
    exact ⟨fun h => absurd rfl h, x, by rw [Function.update_of_ne hqp, hq], rfl⟩
  | @moved p r n y z pos pos' live fresh =>
    have hqp : q ≠ p := hne p rfl
    have hqr : q ≠ r := fun heq => by
      have := fresh (heq ▸ hqp)
      simp [← heq, hq] at this
    exact ⟨fun _ => hqr, x,
      by rw [Function.update_of_ne hqr, Function.update_of_ne hqp, hq], rfl⟩
  | @written p a v y live lower upper =>
    refine ⟨fun h => absurd rfl h, ?_⟩
    by_cases hqp : q = p
    · subst hqp
      obtain rfl := Option.some.inj (hq.symm.trans live)
      exact ⟨_, Function.update_self .., by simp⟩
    · exact ⟨x, by rw [Function.update_of_ne hqp, hq], rfl⟩

theorem usable_of_extent {x : Extent} (hx : extentOf s p = some x) :
    (s.live p).isSome ∧ heapUsableSize s.heap p = x.bytes.length := by
  obtain ⟨n, hn, rfl⟩ := Option.map_eq_some_iff.mp hx
  exact ⟨by rw [hn, Option.isSome_some], readBytes_length.symm⟩

theorem effect_other (K : Consistent s bs) (E : Effect s bs (c, r) t bs')
    (hlive : (s.live q).isSome) (hne : ∀ p, pointerOf c = some p → q ≠ p) :
    (r ≠ 0 → q ≠ r) ∧ (t.live q).isSome ∧
      heapUsableSize t.heap q = heapUsableSize s.heap q := by
  obtain ⟨n, hn⟩ := Option.isSome_iff_exists.mp hlive
  have hx : extentOf s q = some ⟨readBytes s.heap.memory q (heapUsableSize s.heap q), n⟩ := by
    rw [extentOf, hn, Option.map_some]
  obtain ⟨hqr, y, hy, hlen⟩ := extentStep_other (effect_extentStep K E) hx hne
  obtain ⟨hlive', husable⟩ := usable_of_extent hy
  exact ⟨hqr, hlive', by rw [husable, hlen, readBytes_length]⟩

/-- The engine's other pointers are not touched by a call about `c`'s pointer. -/
theorem usableSum_other (owned : Finset ℕ) (K : Consistent s bs) (E : Effect s bs (c, r) t bs')
    (hlive : ∀ q ∈ owned, (s.live q).isSome) (hne : ∀ p, pointerOf c = some p → p ∉ owned) :
    usableSum t.heap owned = usableSum s.heap owned ∧ (∀ q ∈ owned, (t.live q).isSome) ∧
      (r ≠ 0 → r ∉ owned) := by
  have hother := fun q (hq : q ∈ owned) => effect_other K E (hlive q hq)
    fun p hp heq => hne p hp (heq ▸ hq)
  exact ⟨Finset.sum_congr rfl fun q hq => (hother q hq).2.2, fun q hq => (hother q hq).2.1,
    fun hr hmem => (hother r hmem).1 hr rfl⟩

theorem effect_null {e : Event} (E : Effect s bs e t bs') (h0 : e.2 = 0)
    (hgives : ∀ p, e.1 ≠ .release p ∧ e.1 ≠ .reallocate p 0) (hwrite : ∀ a v, e.1 ≠ .write a v) :
    t = s ∧ bs' = bs := by
  cases E with
  | refused => exact ⟨rfl, rfl⟩
  | @taken c n b => exact absurd h0 (Nat.succ_ne_zero _)
  | @returned c b h' bs' gives =>
    rcases gives with rfl | rfl
    · exact absurd rfl (hgives _).1
    · exact absurd rfl (hgives _).2
  | moved => exact absurd h0 (Nat.succ_ne_zero _)
  | written => exact absurd rfl (hwrite _ _)

/-- A returned pointer is live. -/
theorem effect_result {e : Event} (E : Effect s bs e t bs') (hr : e.2 ≠ 0) :
    (t.live e.2).isSome := by
  cases E with
  | refused => exact absurd rfl hr
  | taken => simp
  | returned => exact absurd rfl hr
  | moved => simp
  | written => exact absurd rfl hr

end Effects

section Books

variable {s : System} {bs : List Block} {c : SystemCall} {p n : ℕ}

theorem Books.nonnull (B : Books s bs) (hp : p ∈ s.owned) : p ≠ 0 := by
  obtain ⟨b, -, -, rfl⟩ := B.consistent.live_block (B.owned_live p hp)
  exact Nat.succ_ne_zero _

theorem usableSum_erase (h : Heap) {owned : Finset ℕ} (hp : p ∈ owned) :
    heapUsableSize h p + usableSum h (owned.erase p) = usableSum h owned :=
  Finset.add_sum_erase owned (heapUsableSize h) hp

/-- The guards of `runtime_free` and `runtime_realloc` hold for every pointer of the engine. -/
theorem Books.guards (B : Books s bs) (hp : p ∈ s.owned) : s.state.mallocCount ≠ 0 ∧
    heapUsableSize s.client.heap p ≤ s.state.mallocSize ∧ s.state.mallocCount < 2 ^ 64 ∧
    s.state.mallocSize < 2 ^ 64 := by
  obtain ⟨hcard, hsum⟩ := owned_bound B.consistent B.owned_live
  have herase := usableSum_erase s.client.heap hp
  rw [B.count_eq, B.size_eq]
  exact ⟨Finset.card_ne_zero_of_mem hp, by omega, hcard, hsum⟩

theorem Books.runtimeFree_eq (B : Books s bs) (hp : p ∈ s.owned) :
    runtimeFree s.state s.client.heap p = runtimeFreeUnguarded s.state s.client.heap p := by
  obtain ⟨hcount, hsize, -⟩ := B.guards hp
  simp only [runtimeFree, runtimeFreeUnguarded, if_neg (B.nonnull hp), if_pos hcount, if_pos hsize]

theorem Books.runtimeRealloc_eq (B : Books s bs) (hp : p ∈ s.owned) (n : ℕ) :
    runtimeRealloc s.state s.client.heap p n =
      runtimeReallocUnguarded s.state s.client.heap p n := by
  obtain ⟨-, hsize, -⟩ := B.guards hp
  simp only [runtimeRealloc, runtimeReallocUnguarded, if_neg (B.nonnull hp), B.runtimeFree_eq hp,
    ge_iff_le, if_pos hsize]

/-- `runtime_malloc`, also when it is reached through `runtime_realloc`. -/
theorem Books.malloc (B : Books s bs)
    (hperform : performCall s.state s.client.heap c = runtimeMalloc s.state s.client.heap n)
    (haccount : ∀ r, accountCall s.client.live r c = account s.client.live r (.allocate n))
    (hown : ∀ r, own s.owned r c = if r = 0 then s.owned else insert r s.owned) :
    ∃ r t bs', s.call c = some (r, t) ∧ Books t bs' ∧ (r = 0 → t = s) := by
  by_cases hlimit : n = 0 ∨ s.state.mallocSize > s.state.mallocLimit ∨
      n > sub64 s.state.mallocLimit s.state.mallocSize
  · refine ⟨0, s, bs, ?_, B, fun _ => rfl⟩
    simp [System.call, hperform, runtimeMalloc, if_pos hlimit, haccount, hown, account]
  obtain ⟨r, t, bs', hcall, E⟩ := call_effect B.consistent (c := .allocate n) trivial
  obtain ⟨hheap, ht⟩ := perform_of_call hcall
  simp only [perform] at hheap
  by_cases hr : r = 0
  · subst hr
    obtain ⟨rfl, rfl⟩ := effect_null E rfl (by simp) (by simp)
    refine ⟨0, s, _, ?_, B, fun _ => rfl⟩
    simp [System.call, hperform, runtimeMalloc, hheap, haccount, hown, account]
  obtain ⟨hsum, hlive, hfresh⟩ := usableSum_other s.owned B.consistent E B.owned_live (by simp [pointerOf])
  have K' := E.consistent B.consistent
  have hall : ∀ p ∈ insert r s.owned, (t.live p).isSome := by
    intro p hp
    rcases Finset.mem_insert.mp hp with rfl | hp
    · exact effect_result E hr
    · exact hlive p hp
  obtain ⟨hcard, hbound⟩ := owned_bound K' hall
  have hinsert : usableSum t.heap (insert r s.owned) =
      heapUsableSize t.heap r + usableSum t.heap s.owned := Finset.sum_insert (hfresh hr)
  rw [Finset.card_insert_of_notMem (hfresh hr)] at hcard
  refine ⟨r, ⟨t, { s.state with
      mallocCount := add64 s.state.mallocCount 1
      mallocSize := add64 s.state.mallocSize (heapUsableSize t.heap r) }, insert r s.owned⟩, bs',
    ?_, ⟨K', hall, ?_, ?_⟩, fun h => absurd h hr⟩
  · rw [ht]
    simp [System.call, hperform, runtimeMalloc, if_neg hlimit, hheap, haccount, hown, hr]
  · rw [Finset.card_insert_of_notMem (hfresh hr), ← B.count_eq]
    exact add64_eq (by rw [B.count_eq]; exact hcard)
  · dsimp only
    rw [hinsert, B.size_eq, add64_eq (by omega)]
    omega

/-- `runtime_free`, also when it is reached through `runtime_realloc`. -/
theorem Books.free (B : Books s bs) (hp : p ∈ s.owned)
    (hperform : performCall s.state s.client.heap c =
      some (0, (runtimeFree s.state s.client.heap p).1, heapRelease s.client.heap p))
    (haccount : accountCall s.client.live 0 c = account s.client.live 0 (.release p))
    (hown : own s.owned 0 c = s.owned.erase p) :
    ∃ t bs', s.call c = some (0, t) ∧ Books t bs' := by
  obtain ⟨hcount, hsize, hcount_lt, hsize_lt⟩ := B.guards hp
  obtain ⟨r, t, bs', hcall, E⟩ := call_effect B.consistent (c := .release p)
    (Or.inr (B.owned_live p hp))
  obtain ⟨hheap, ht⟩ := perform_of_call hcall
  simp only [perform, Option.some.injEq, Prod.mk.injEq] at hheap
  obtain ⟨rfl, hheap⟩ := hheap
  obtain ⟨hsum, hlive, -⟩ := usableSum_other (s.owned.erase p) B.consistent E
    (fun q hq => B.owned_live q (Finset.mem_of_mem_erase hq)) (by simp [pointerOf])
  have herase := usableSum_erase s.client.heap hp
  refine ⟨⟨t, (runtimeFree s.state s.client.heap p).1, s.owned.erase p⟩, bs', ?_,
    E.consistent B.consistent, hlive, ?_, ?_⟩
  · rw [ht]
    simp [System.call, hperform, haccount, hown, hheap]
  · rw [B.runtimeFree_eq hp, Finset.card_erase_of_mem hp, ← B.count_eq]
    exact sub64_eq (by omega) hcount_lt
  · rw [B.runtimeFree_eq hp]
    dsimp only [runtimeFreeUnguarded]
    rw [hsum, sub64_eq hsize hsize_lt, B.size_eq]
    omega

/-- `runtime_realloc` of a pointer of the engine, to a size that is not zero. -/
theorem Books.realloc (B : Books s bs) (hp : p ∈ s.owned) (hn : n ≠ 0) :
    ∃ r t bs', s.call (.realloc p n) = some (r, t) ∧ Books t bs' ∧ (r = 0 → t = s) := by
  obtain ⟨-, hsize, -, hsize_lt⟩ := B.guards hp
  have hp0 := B.nonnull hp
  have herase := usableSum_erase s.client.heap hp
  have hbase : sub64 s.state.mallocSize (heapUsableSize s.client.heap p) =
      usableSum s.client.heap (s.owned.erase p) := by
    rw [sub64_eq hsize hsize_lt, B.size_eq]
    omega
  have hperform := B.runtimeRealloc_eq hp n
  simp only [runtimeReallocUnguarded, if_neg hn, hbase] at hperform
  split_ifs at hperform with hlimit
  · refine ⟨0, s, bs, ?_, B, fun _ => rfl⟩
    simp [System.call, performCall, hperform, accountCall, account, own, hp0, hn]
  obtain ⟨r, t, bs', hcall, E⟩ := call_effect B.consistent (c := .reallocate p n)
    (Or.inr (B.owned_live p hp))
  obtain ⟨hheap, ht⟩ := perform_of_call hcall
  simp only [perform] at hheap
  by_cases hr : r = 0
  · subst hr
    obtain ⟨rfl, rfl⟩ := effect_null E rfl (by simp [hn]) (by simp)
    refine ⟨0, s, _, ?_, B, fun _ => rfl⟩
    simp [System.call, performCall, hperform, hheap, accountCall, account, own, hp0, hn]
  obtain ⟨hsum, hlive, hfresh⟩ := usableSum_other (s.owned.erase p) B.consistent E
    (fun q hq => B.owned_live q (Finset.mem_of_mem_erase hq)) (by simp [pointerOf])
  have K' := E.consistent B.consistent
  have hall : ∀ q ∈ insert r (s.owned.erase p), (t.live q).isSome := by
    intro q hq
    rcases Finset.mem_insert.mp hq with rfl | hq
    · exact effect_result E hr
    · exact hlive q hq
  obtain ⟨-, hbound⟩ := owned_bound K' hall
  have hinsert : usableSum t.heap (insert r (s.owned.erase p)) =
      heapUsableSize t.heap r + usableSum t.heap (s.owned.erase p) :=
    Finset.sum_insert (hfresh hr)
  refine ⟨r, ⟨t, { s.state with
      mallocSize := add64 (usableSum s.client.heap (s.owned.erase p)) (heapUsableSize t.heap r) },
      insert r (s.owned.erase p)⟩, bs', ?_, ⟨K', hall, ?_, ?_⟩, fun h => absurd h hr⟩
  · rw [ht]
    simp [System.call, performCall, hperform, hheap, accountCall, own, hp0, hn, hr]
  · rw [Finset.card_insert_of_notMem (hfresh hr), Finset.card_erase_add_one hp]
    exact B.count_eq
  · dsimp only
    rw [hinsert, add64_eq (by omega)]
    omega

/-- A request of the engine for memory. -/
def asksFor : SystemCall → ℕ
  | .malloc size => size
  | .realloc _ size => size
  | _ => 0

/-- To free a null pointer does nothing. -/
theorem Books.free_null (B : Books s bs) : s.call (.free 0) = some (0, s) := by
  have hdead : s.client.live 0 = none := by
    by_contra hne
    obtain ⟨b, -, -, heq⟩ := B.consistent.live_block (Option.isSome_iff_ne_none.mpr hne)
    omega
  have howned : 0 ∉ s.owned := fun h0 => B.nonnull h0 rfl
  have hlive : Function.update s.client.live 0 none = s.client.live :=
    Function.update_eq_self_iff.mpr hdead.symm
  simp [System.call, performCall, runtimeFree, accountCall, account, own, hlive, howned]

/-- What another client does with its own blocks is not in the books. -/
theorem Books.other {c : HeapCall} (B : Books s bs) (hl : s.Legal (.other c)) :
    ∃ r t bs', s.call (.other c) = some (r, t) ∧ Books t bs' := by
  obtain ⟨r, t, bs', hcall, E⟩ := call_effect B.consistent hl.1
  obtain ⟨hheap, ht⟩ := perform_of_call hcall
  obtain ⟨hsum, hlive, -⟩ := usableSum_other s.owned B.consistent E B.owned_live hl.2
  refine ⟨r, ⟨t, s.state, s.owned⟩, bs', ?_, E.consistent B.consistent, hlive, B.count_eq,
    B.size_eq.trans hsum.symm⟩
  rw [ht]
  simp [System.call, performCall, hheap, accountCall, own]

/-- Every legal call is defined and keeps the books; a request that fails changes nothing. -/
theorem Books.call (B : Books s bs) (hl : s.Legal c) : ∃ r t bs', s.call c = some (r, t) ∧
    Books t bs' ∧ (asksFor c ≠ 0 → r = 0 → t = s) := by
  cases c with
  | malloc n =>
    obtain ⟨r, t, bs', hcall, B', hnull⟩ := B.malloc (c := .malloc n) rfl (fun _ => rfl)
      fun _ => rfl
    exact ⟨r, t, bs', hcall, B', fun _ => hnull⟩
  | realloc p n =>
    rcases hl with rfl | hp
    · obtain ⟨r, t, bs', hcall, B', hnull⟩ := B.malloc (c := .realloc 0 n) (n := n)
        (by simp [performCall, runtimeRealloc]) (by simp [accountCall, account]) (by simp [own])
      exact ⟨r, t, bs', hcall, B', fun _ => hnull⟩
    by_cases hn : n = 0
    · subst hn
      have hp0 := B.nonnull hp
      obtain ⟨t, bs', hcall, B'⟩ := B.free (c := .realloc p 0) hp
        (by simp [performCall, runtimeRealloc, runtimeFree, hp0])
        (by simp [accountCall, account, hp0]) (by simp [own, hp0])
      exact ⟨0, t, bs', hcall, B', fun h => absurd rfl h⟩
    · obtain ⟨r, t, bs', hcall, B', hnull⟩ := B.realloc hp hn
      exact ⟨r, t, bs', hcall, B', fun _ => hnull⟩
  | free p =>
    rcases hl with rfl | hp
    · exact ⟨0, s, bs, B.free_null, B, fun h => absurd rfl h⟩
    · obtain ⟨t, bs', hcall, B'⟩ := B.free (c := .free p) hp
        (by simp [performCall, runtimeFree, B.nonnull hp]) rfl rfl
      exact ⟨0, t, bs', hcall, B', fun h => absurd rfl h⟩
  | other c =>
    obtain ⟨r, t, bs', hcall, B'⟩ := B.other hl
    exact ⟨r, t, bs', hcall, B', fun h => absurd rfl h⟩
  | limit n =>
    exact ⟨0, ⟨s.client, { s.state with mallocLimit := n }, s.owned⟩, bs, rfl,
      ⟨B.consistent, B.owned_live, B.count_eq, B.size_eq⟩, fun h => absurd rfl h⟩

theorem Books.step {e : SystemEvent} {t : System} (B : Books s bs) (h : System.Step s e t) :
    ∃ bs', Books t bs' ∧ (asksFor e.1 ≠ 0 → e.2 = 0 → t = s) := by
  obtain ⟨r, t', bs', hcall, B', hnull⟩ := B.call h.1
  have heq := hcall.symm.trans h.2
  simp only [Option.some.injEq, Prod.mk.injEq] at heq
  obtain ⟨rfl, rfl⟩ := heq
  exact ⟨bs', B', hnull⟩

theorem start_books (r : Region) (limit : ℕ) : Books (System.start r limit) [r.block] :=
  ⟨r.start_consistent, by simp [System.start], rfl, rfl⟩

end Books

/-- In every run of the engine and the other clients the books are exact, the saturating guards
decide nothing, and a failed request leaves everything as it was. -/
theorem run_books_exact (r : Region) (limit : ℕ) {es : List SystemEvent} {s : System}
    (hrun : Run System.Step (System.start r limit) es s) :
    (∀ p ∈ s.owned, (s.client.live p).isSome) ∧
    s.state.mallocCount = s.owned.card ∧
    s.state.mallocSize = ∑ p ∈ s.owned, heapUsableSize s.client.heap p ∧
    (∀ p ∈ s.owned,
      runtimeFree s.state s.client.heap p = runtimeFreeUnguarded s.state s.client.heap p ∧
      ∀ n, runtimeRealloc s.state s.client.heap p n =
        runtimeReallocUnguarded s.state s.client.heap p n) ∧
    (∀ c, s.Legal c → ∃ result t, s.call c = some (result, t)) ∧
    ∀ c t, asksFor c ≠ 0 → System.Step s (c, 0) t → t = s := by
  obtain ⟨bs, B⟩ := hrun.invariant (fun s => ∃ bs, Books s bs)
    (fun s e t hs hstep => by
      obtain ⟨bs, B⟩ := hs
      obtain ⟨bs', B', -⟩ := B.step hstep
      exact ⟨bs', B'⟩)
    ⟨_, start_books r limit⟩
  refine ⟨B.owned_live, B.count_eq, B.size_eq,
    fun p hp => ⟨B.runtimeFree_eq hp, B.runtimeRealloc_eq hp⟩, fun c hc => ?_,
    fun c t hc hstep => ?_⟩
  · obtain ⟨result, t, -, hcall, -⟩ := B.call hc
    exact ⟨result, t, hcall⟩
  · obtain ⟨-, -, hnull⟩ := B.step hstep
    exact hnull hc rfl

theorem run_books_exact_smallRegion : ∃ s : System,
    Run System.Step (System.start smallRegion 300)
      [(.malloc 64, 4128), (.other (.allocate 8), 4224), (.malloc 400, 0), (.realloc 4128 80, 4272),
        (.other (.release 4224), 0), (.malloc 16, 4128)] s ∧
      s.state.mallocCount = 2 ∧ s.state.mallocCount = s.owned.card ∧
      s.state.mallocSize = ∑ p ∈ s.owned, heapUsableSize s.client.heap p := by
  obtain ⟨s, hrun, hcount⟩ := Run.of_nextCall (s := System.start smallRegion 300) (fun s => s.state.mallocCount)
    (show (List.foldlM (nextCall System.Legal System.call) _ [(.malloc 64, 4128), (.other (.allocate 8), 4224),
      (.malloc 400, 0), (.realloc 4128 80, 4272), (.other (.release 4224), 0),
      (.malloc 16, 4128)]).map _ = some 2 by decide +kernel)
  obtain ⟨-, hcard, hsize, -⟩ := run_books_exact smallRegion 300 hrun
  exact ⟨s, hrun, hcount, hcard, hsize⟩

end JsOs.AllocatorBooks

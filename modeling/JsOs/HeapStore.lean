import JsOs.HeapCoalescing

/-!
# The heap as a store of byte ranges

A client may think of the heap as a map from live pointers to disjoint ranges of bytes. Each call
takes, gives back, moves or writes one range and leaves the others as they are; blocks, links and
headers do not appear in that picture.
-/

namespace JsOs.HeapStore

open ByteMemory MachineWords HeapModel HeapLayout HeapSurgery HeapFrames HeapOperations
open HeapChanges HeapRuns TransitionRuns

/-- One live range and the size last requested for it. -/
structure Extent where
  bytes : List UInt8
  requested : ℕ
  deriving DecidableEq, Repr

/-- Aligned, disjoint ranges between two addresses. -/
structure Store (lower upper : ℕ) where
  extent : ℕ → Option Extent
  aligned : ∀ p x, extent p = some x → 16 ∣ p
  inside : ∀ p x, extent p = some x → lower ≤ p ∧ p + x.bytes.length ≤ upper
  requested_le : ∀ p x, extent p = some x → x.requested ≤ x.bytes.length
  disjoint : ∀ p q x y, p ≠ q → extent p = some x → extent q = some y →
    p + x.bytes.length ≤ q ∨ q + y.bytes.length ≤ p

def Store.empty (lower upper : ℕ) : Store lower upper where
  extent _ := none
  aligned _ _ h := by cases h
  inside _ _ h := by cases h
  requested_le _ _ h := by cases h
  disjoint _ _ _ _ _ h := by cases h

/-- What a call means for the ranges. -/
inductive ExtentStep (m : ℕ → Option Extent) : Event → (ℕ → Option Extent) → Prop
  | refused {c : HeapCall} (may : MayRefuse c) : ExtentStep m (c, 0) m
  | taken {c : HeapCall} {p : ℕ} {x : Extent} (asked : asks c = some x.requested) (pos : p ≠ 0)
      (fresh : m p = none) (zeroed : ∀ count size, c = .callocate count size →
        x.bytes.take (count * size) = List.replicate (count * size) 0) :
      ExtentStep m (c, p) (Function.update m p (some x))
  | returned {c : HeapCall} {p : ℕ} {x : Extent} (gives : c = .release p ∨ c = .reallocate p 0)
      (live : m p = some x) : ExtentStep m (c, 0) (Function.update m p none)
  | moved {p q n : ℕ} {x y : Extent} (pos : n ≠ 0) (pos' : q ≠ 0) (live : m p = some x)
      (fresh : q ≠ p → m q = none) (asked : y.requested = n)
      (kept : y.bytes.take (min x.bytes.length n) = x.bytes.take (min x.bytes.length n)) :
      ExtentStep m (.reallocate p n, q) (Function.update (Function.update m p none) q (some y))
  | written {p a : ℕ} {v : UInt8} {x : Extent} (live : m p = some x) (lower : p ≤ a)
      (upper : a < p + x.bytes.length) :
      ExtentStep m (.write a v, 0)
        (Function.update m p (some { x with bytes := x.bytes.set (a - p) v }))

def Store.Step {lower upper : ℕ} (S : Store lower upper) (e : Event) (S' : Store lower upper) :
    Prop := ExtentStep S.extent e S'.extent

/-- The range that the client sees at `p`. -/
def extentOf (s : Client) (p : ℕ) : Option Extent :=
  (s.live p).map fun n => ⟨readBytes s.heap.memory p (heapUsableSize s.heap p), n⟩

variable {s t : Client} {bs bs' : List Block} {b c : Block} {e : Event}

theorem extentOf_block (K : Consistent s bs) (hb : b ∈ bs) (hused : b.free = false) :
    ∃ n, s.live (b.address + 32) = some n ∧ n ≤ b.size ∧ extentOf s (b.address + 32) =
      some ⟨readBytes s.heap.memory (b.address + 32) b.size, n⟩ := by
  obtain ⟨n, hn⟩ := Option.isSome_iff_exists.mp (K.block_live hb hused)
  exact ⟨n, hn, K.requested b hb hused n hn, by simp [extentOf, hn, K.usable_eq hb hused]⟩

theorem extentOf_eq_some (K : Consistent s bs) {p : ℕ} {x : Extent} (hx : extentOf s p = some x) :
    ∃ b ∈ bs, b.free = false ∧ p = b.address + 32 ∧ x.bytes.length = b.size ∧
      x.requested ≤ b.size := by
  cases hlive : s.live p with
  | none => simp [extentOf, hlive] at hx
  | some n =>
    obtain ⟨b, hb, hused, rfl⟩ := K.live_block (Option.isSome_iff_exists.mpr ⟨n, hlive⟩)
    obtain ⟨n', hn', hle, heq⟩ := extentOf_block K hb hused
    obtain rfl := Option.some.inj (heq.symm.trans hx)
    exact ⟨b, hb, hused, rfl, readBytes_length, hle⟩

/-- The ranges of a consistent client form a store. -/
def storeOf {lower upper : ℕ} (K : Consistent s bs) (hbegin : s.heap.heapBegin = lower)
    (hend : s.heap.heapEnd = upper) : Store lower upper where
  extent := extentOf s
  aligned p x hx := by
    obtain ⟨b, hb, -, rfl, -⟩ := extentOf_eq_some K hx
    have L := K.wellFormed.layout
    have := (L.tiles.aligned L.begin_aligned).2 b hb
    omega
  inside p x hx := by
    obtain ⟨b, hb, -, rfl, hlen, -⟩ := extentOf_eq_some K hx
    have := K.wellFormed.layout.tiles.mem hb
    omega
  requested_le p x hx := by
    obtain ⟨b, -, -, -, hlen, hle⟩ := extentOf_eq_some K hx
    omega
  disjoint p q x y hpq hx hy := by
    obtain ⟨b, hb, -, rfl, hlen, -⟩ := extentOf_eq_some K hx
    obtain ⟨c, hc, -, rfl, hlen', -⟩ := extentOf_eq_some K hy
    have hbc : b ≠ c := fun heq => hpq (by rw [heq])
    have := K.wellFormed.layout.tiles.disjoint hb hc hbc
    omega

/-- A live range meets no header. -/
theorem extent_headers (K : Consistent s bs) {p : ℕ} {x : Extent} (hx : extentOf s p = some x)
    (hc : c ∈ bs) : p + x.bytes.length ≤ c.address ∨ c.address + headerSize ≤ p := by
  obtain ⟨b, hb, -, rfl, hlen, -⟩ := extentOf_eq_some K hx
  rw [headerSize_eq]
  by_cases hbc : b = c
  · subst hbc
    exact Or.inr le_rfl
  · have := K.wellFormed.layout.tiles.disjoint hb hc hbc
    omega

/-- Ranges that a change does not name stay as they are. -/
theorem extentOf_change {h' : Heap} {live : ℕ → Option ℕ} {removed added : Option Block} {p : ℕ}
    (K : Consistent s bs) (K' : Consistent ⟨h', live⟩ bs')
    (C : Change s.heap bs h' bs' removed added) (hlive : live p = s.live p)
    (hr : ∀ b, removed = some b → p ≠ b.address + 32) : extentOf ⟨h', live⟩ p = extentOf s p := by
  cases hs : s.live p with
  | none => simp [extentOf, hlive, hs]
  | some n =>
    obtain ⟨b, hb, hused, rfl⟩ := K.live_block (Option.isSome_iff_exists.mpr ⟨n, hs⟩)
    have hne : removed ≠ some b := fun heq => hr b heq rfl
    have hb' : b ∈ bs' := (C.mem_iff b hused).mpr (Or.inr ⟨hb, hne⟩)
    simp only [extentOf, hlive, hs, Option.map_some, K.usable_eq hb hused, Option.some.injEq,
      K'.usable_eq hb' hused, Extent.mk.injEq, and_true]
    exact readBytes_congr fun i hi => C.bytes b hb hused hne _ (by omega) (by omega)

/-- No range was at the place of a new one. -/
theorem extentOf_fresh (K : Consistent s bs) {h' : Heap} {removed : Option Block}
    (C : Change s.heap bs h' bs' removed (some c))
    (hne : ∀ b, removed = some b → c.address ≠ b.address) : extentOf s (c.address + 32) = none := by
  by_contra hsome
  obtain ⟨x, hx⟩ := Option.ne_none_iff_exists'.mp hsome
  obtain ⟨u, hu, hused, heq, -⟩ := extentOf_eq_some K hx
  have haddress : c.address = u.address := by omega
  exact C.fresh c rfl u hu hused (fun hremoved => hne u hremoved haddress) haddress.symm

theorem extentOf_taken (K : Consistent s bs) {h' : Heap} {n : ℕ}
    (K' : Consistent ⟨h', Function.update s.live (b.address + 32) (some n)⟩ bs')
    (C : Change s.heap bs h' bs' none (some b)) (hused : b.free = false) :
    extentOf ⟨h', Function.update s.live (b.address + 32) (some n)⟩ =
      Function.update (extentOf s) (b.address + 32)
        (some ⟨readBytes h'.memory (b.address + 32) b.size, n⟩) := by
  have hb : b ∈ bs' := (C.mem_iff b hused).mpr (Or.inl rfl)
  funext p
  by_cases hp : p = b.address + 32
  · subst hp
    simp [extentOf, K'.usable_eq hb hused]
  · rw [Function.update_of_ne hp]
    exact extentOf_change K K' C (Function.update_of_ne hp ..) (by simp)

theorem extentOf_returned (K : Consistent s bs) {h' : Heap}
    (K' : Consistent ⟨h', Function.update s.live (b.address + 32) none⟩ bs')
    (C : Change s.heap bs h' bs' (some b) none) :
    extentOf ⟨h', Function.update s.live (b.address + 32) none⟩ =
      Function.update (extentOf s) (b.address + 32) none := by
  funext p
  by_cases hp : p = b.address + 32
  · subst hp
    simp [extentOf]
  · rw [Function.update_of_ne hp]
    refine extentOf_change K K' C (Function.update_of_ne hp ..) ?_
    rintro _ ⟨⟩
    exact hp

theorem extentOf_moved (K : Consistent s bs) {h' : Heap} {n : ℕ}
    (K' : Consistent ⟨h', Function.update (Function.update s.live (b.address + 32) none)
      (c.address + 32) (some n)⟩ bs')
    (C : Change s.heap bs h' bs' (some b) (some c)) (hused : c.free = false) :
    extentOf ⟨h', Function.update (Function.update s.live (b.address + 32) none)
        (c.address + 32) (some n)⟩ =
      Function.update (Function.update (extentOf s) (b.address + 32) none) (c.address + 32)
        (some ⟨readBytes h'.memory (c.address + 32) c.size, n⟩) := by
  have hc : c ∈ bs' := (C.mem_iff c hused).mpr (Or.inl rfl)
  funext p
  by_cases hp : p = c.address + 32
  · subst hp
    simp [extentOf, K'.usable_eq hc hused]
  by_cases hq : p = b.address + 32
  · subst hq
    simp [extentOf, Function.update_of_ne hp]
  · rw [Function.update_of_ne hp, Function.update_of_ne hq]
    refine extentOf_change K K' C ?_ ?_
    · rw [Function.update_of_ne hp, Function.update_of_ne hq]
    · rintro _ ⟨⟩
      exact hq

theorem extentOf_written (K : Consistent s bs) {a n : ℕ} {v : UInt8}
    (K' : Consistent ⟨{ s.heap with memory := storeByte s.heap.memory a v }, s.live⟩ bs)
    (hb : b ∈ bs) (hused : b.free = false) (hn : s.live (b.address + 32) = some n)
    (lower : b.address + 32 ≤ a) (upper : a < b.address + 32 + b.size) :
    extentOf ⟨{ s.heap with memory := storeByte s.heap.memory a v }, s.live⟩ =
      Function.update (extentOf s) (b.address + 32)
        (some ⟨(readBytes s.heap.memory (b.address + 32) b.size).set (a - (b.address + 32)) v,
          n⟩) := by
  funext p
  by_cases hp : p = b.address + 32
  · subst hp
    simp [extentOf, hn, K'.usable_eq hb hused, readBytes_set lower]
  rw [Function.update_of_ne hp]
  cases hs : s.live p with
  | none => simp [extentOf, hs]
  | some k =>
    obtain ⟨u, hu, hused', rfl⟩ := K.live_block (Option.isSome_iff_exists.mpr ⟨k, hs⟩)
    have hub : u ≠ b := fun heq => hp (by rw [heq])
    have hapart := K.wellFormed.layout.tiles.disjoint hu hb hub
    simp only [extentOf, hs, Option.map_some, K.usable_eq hu hused', K'.usable_eq hu hused',
      Option.some.injEq, Extent.mk.injEq, and_true]
    exact readBytes_congr fun i hi => storeByte_of_ne (by omega) v

/-- Each effect on the blocks is the meaning of the call on the ranges. -/
theorem effect_extentStep (K : Consistent s bs) (E : Effect s bs e t bs') :
    ExtentStep (extentOf s) e (extentOf t) := by
  have K' := E.consistent K
  cases E with
  | refused may => exact .refused may
  | @taken c n b h' _ asked change used le zeroed =>
    rw [extentOf_taken K K' change used]
    refine .taken asked (by omega) (extentOf_fresh K change (by simp)) fun count size hc => ?_
    subst hc
    obtain rfl : count * size = n := Option.some.inj asked
    rw [readBytes_take le]
    exact readBytes_zero (zeroed count size rfl)
  | @returned c b h' _ gives mem used change =>
    obtain ⟨n, -, -, hx⟩ := extentOf_block K mem used
    rw [extentOf_returned K K' change]
    exact .returned gives hx
  | @moved n b c h' _ pos mem used change used' le kept =>
    obtain ⟨k, -, -, hx⟩ := extentOf_block K mem used
    rw [extentOf_moved K K' change used']
    refine .moved pos (by omega) hx (fun hne => extentOf_fresh K change ?_) rfl ?_
    · rintro _ ⟨⟩ heq
      exact hne (by rw [heq])
    · dsimp only
      rw [readBytes_length, readBytes_take (Nat.min_le_left ..), readBytes_take (by omega)]
      exact readBytes_congr fun i hi => kept i (by omega) (by omega)
  | @written a v b mem used lower upper =>
    obtain ⟨n, hn, -, hx⟩ := extentOf_block K mem used
    rw [extentOf_written K K' mem used hn lower upper]
    exact .written hx lower (by simpa using upper)

/-- The heap refines the store. Every run from an accepted region is a run of the store, whose
ranges are at each moment the bytes behind the live pointers and keep clear of all headers; and
whatever the next call does, it does to the ranges what the store says. -/
theorem run_refines_store (r : Region) {es : List Event} {s : Client}
    (hrun : Run Step r.start es s) :
    ∃ S : Store r.start.heap.heapBegin r.start.heap.heapEnd,
      Run Store.Step (Store.empty _ _) es S ∧ S.extent = extentOf s ∧
      (∃ bs, Layout s.heap bs ∧ ∀ p x, S.extent p = some x → ∀ b ∈ bs,
        p + x.bytes.length ≤ b.address ∨ b.address + headerSize ≤ p) ∧
      ∀ e t, Step s e t → ExtentStep (extentOf s) e (extentOf t) := by
  have hstart : extentOf r.start = fun _ => none := rfl
  let R (s : Client) (S : Store r.start.heap.heapBegin r.start.heap.heapEnd) : Prop :=
    S.extent = extentOf s ∧ ∃ bs, r.Holds s bs
  have hsim : ∀ s e t S, R s S → Step s e t → ∃ S', Store.Step S e S' ∧ R t S' := by
    rintro s e t S ⟨hext, bs, K⟩ hstep
    obtain ⟨bs', E⟩ := step_effect K.toConsistent hstep
    have K' := K.effect E
    refine ⟨storeOf K'.toConsistent K'.begin_eq K'.end_eq, ?_, rfl, bs', K'⟩
    change ExtentStep S.extent e (extentOf t)
    rw [hext]
    exact effect_extentStep K.toConsistent E
  obtain ⟨S, hS, hext, bs, K⟩ := hrun.simulate R hsim (x := Store.empty _ _)
    ⟨hstart.symm, _, r.start_holds⟩
  refine ⟨S, hS, hext, ⟨bs, K.wellFormed.layout, fun p x hx b hb => ?_⟩, fun e t hstep => ?_⟩
  · exact extent_headers K.toConsistent (hext ▸ hx) hb
  · obtain ⟨bs', E⟩ := step_effect K.toConsistent hstep
    exact effect_extentStep K.toConsistent E

theorem run_refines_store_smallRegion : ∃ s S,
    Run Step smallRegion.start
      [(.callocate 2 8, 4128), (.allocate 24, 4176), (.reallocate 4128 64, 4240),
        (.release 4176, 0)] s ∧
    (S : Store 4096 4608).extent = extentOf s := by
  obtain ⟨s, hrun, -⟩ := Run.of_nextCall (s := smallRegion.start) (fun s => s.heap.allocationCount)
    (show (List.foldlM (nextCall Legal call) _ [(.callocate 2 8, 4128), (.allocate 24, 4176),
      (.reallocate 4128 64, 4240), (.release 4176, 0)]).map _ = some 1 by decide +kernel)
  obtain ⟨S, -, hS, -⟩ := run_refines_store smallRegion hrun
  exact ⟨s, S, hrun, hS⟩

end JsOs.HeapStore

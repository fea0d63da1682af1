import JsOs.HeapCalls
import JsOs.TransitionRuns

/-!
# Runs of the heap

A client calls the heap with null or live pointers and writes inside its live ranges. `Effect`
lists what such a call can do to the layout and to the live pointers; every result about runs is
read off from it.
-/

namespace JsOs.HeapRuns

open ByteMemory MachineWords HeapModel HeapLayout HeapSurgery HeapFrames HeapOperations
open HeapChanges HeapCalls TransitionRuns

/-- The heap and, for the record, the size last requested for each live pointer. -/
structure Client where
  heap : Heap
  live : ℕ → Option ℕ

inductive HeapCall where
  | allocate (size : ℕ)
  | callocate (count size : ℕ)
  | reallocate (pointer size : ℕ)
  | release (pointer : ℕ)
  /-- The client stores a byte. -/
  | write (address : ℕ) (value : UInt8)
  deriving DecidableEq, Repr

/-- The result pointer and the heap afterwards; calls without a result return null here. -/
def perform (h : Heap) : HeapCall → Option (ℕ × Heap)
  | .allocate size => heapAllocate h size
  | .callocate count size => heapCallocate h count size
  | .reallocate pointer size => heapReallocate h pointer size
  | .release pointer => some (0, heapRelease h pointer)
  | .write address value => some (0, { h with memory := storeByte h.memory address value })

/-- The live pointers after a call that returned `result`. -/
def account (live : ℕ → Option ℕ) (result : ℕ) : HeapCall → ℕ → Option ℕ
  | .allocate size => if result = 0 then live else Function.update live result (some size)
  | .callocate count size =>
    if result = 0 then live else Function.update live result (some (count * size))
  | .reallocate pointer size =>
    if pointer = 0 then
      if result = 0 then live else Function.update live result (some size)
    else if size = 0 then Function.update live pointer none
    else if result = 0 then live
    else Function.update (Function.update live pointer none) result (some size)
  | .release pointer => Function.update live pointer none
  | .write _ _ => live

/-- One call together with the pointer it returned. -/
abbrev Event := HeapCall × ℕ

/-- Pointer arguments are null or live; a write goes to a live range. -/
def Legal (s : Client) : HeapCall → Prop
  | .allocate _ => True
  | .callocate _ _ => True
  | .reallocate pointer _ => pointer = 0 ∨ (s.live pointer).isSome
  | .release pointer => pointer = 0 ∨ (s.live pointer).isSome
  | .write address _ => ∃ p, (s.live p).isSome ∧ p ≤ address ∧
      address < p + heapUsableSize s.heap p

def call (s : Client) (c : HeapCall) : Option (ℕ × Client) :=
  (perform s.heap c).map fun (result, h) => (result, ⟨h, account s.live result c⟩)

theorem perform_of_call {s t : Client} {c : HeapCall} {r : ℕ} (h : call s c = some (r, t)) :
    perform s.heap c = some (r, t.heap) ∧ t = ⟨t.heap, account s.live r c⟩ := by
  obtain ⟨⟨r', h'⟩, hperform, heq⟩ := Option.map_eq_some_iff.mp h
  cases heq
  exact ⟨hperform, rfl⟩

def Step : Client → Event → Client → Prop := CallStep Legal call

instance (s : Client) : ∀ c, Decidable (Legal s c)
  | .allocate _ => .isTrue trivial
  | .callocate _ _ => .isTrue trivial
  | .reallocate p _ => inferInstanceAs (Decidable (p = 0 ∨ (s.live p).isSome = true))
  | .release p => inferInstanceAs (Decidable (p = 0 ∨ (s.live p).isSome = true))
  | .write a _ => decidable_of_iff
      (∃ p < a + 1, (s.live p).isSome = true ∧ a < p + heapUsableSize s.heap p)
      (exists_congr fun p => by rw [Nat.lt_succ_iff, and_left_comm])

/-- A memory region that `heap_init` accepts. As every object it does not start at null, and one
past its end is still an address. -/
structure Region where
  memory : Memory
  base : ℕ
  size : ℕ
  base_pos : 0 < base
  end_lt : base + size < 2 ^ 64
  accepted : (heapInit (Heap.zero memory) base size).1 = 0

def Region.start (r : Region) : Client :=
  ⟨(heapInit (Heap.zero r.memory) r.base r.size).2, fun _ => none⟩

/-- Five hundred and twelve bytes at the second page. -/
def smallRegion : Region := ⟨fun _ => 0, 4096, 512, by decide, by decide, by decide⟩

/-- The live pointers are the payloads of the used blocks, each as large as was asked for. -/
structure Consistent (s : Client) (bs : List Block) : Prop where
  wellFormed : WellFormed s.heap bs
  live_iff : ∀ p, (s.live p).isSome ↔ ∃ b ∈ bs, b.free = false ∧ p = b.address + 32
  requested : ∀ b ∈ bs, b.free = false → ∀ n, s.live (b.address + 32) = some n → n ≤ b.size

/-- The size that a call asks a new range for. -/
def asks : HeapCall → Option ℕ
  | .allocate size => some size
  | .callocate count size => some (count * size)
  | .reallocate pointer size => if pointer = 0 then some size else none
  | _ => none

/-- The calls that may end without any change. -/
def MayRefuse : HeapCall → Prop
  | .allocate _ => True
  | .callocate _ _ => True
  | .reallocate pointer size => pointer = 0 ∨ size ≠ 0
  | .release pointer => pointer = 0
  | .write _ _ => False

/-- All that a legal call can do. -/
inductive Effect (s : Client) (bs : List Block) : Event → Client → List Block → Prop
  | refused {c : HeapCall} (may : MayRefuse c) : Effect s bs (c, 0) s bs
  | taken {c : HeapCall} {n : ℕ} {b : Block} {h' : Heap} {bs' : List Block}
      (asked : asks c = some n) (change : Change s.heap bs h' bs' none (some b))
      (used : b.free = false) (le : n ≤ b.size)
      (zeroed : ∀ count size, c = .callocate count size →
        ∀ i, i < count * size → h'.memory (b.address + 32 + i) = 0)
      (coalesced : Coalesced bs → Coalesced bs') :
      Effect s bs (c, b.address + 32)
        ⟨h', Function.update s.live (b.address + 32) (some n)⟩ bs'
  | returned {c : HeapCall} {b : Block} {h' : Heap} {bs' : List Block}
      (gives : c = .release (b.address + 32) ∨ c = .reallocate (b.address + 32) 0)
      (mem : b ∈ bs) (used : b.free = false) (change : Change s.heap bs h' bs' (some b) none)
      (coalesced : Coalesced bs → Coalesced bs') :
      Effect s bs (c, 0) ⟨h', Function.update s.live (b.address + 32) none⟩ bs'
  | moved {n : ℕ} {b c : Block} {h' : Heap} {bs' : List Block} (pos : n ≠ 0)
      (mem : b ∈ bs) (used : b.free = false) (change : Change s.heap bs h' bs' (some b) (some c))
      (used' : c.free = false) (le : n ≤ c.size)
      (kept : ∀ i, i < b.size → i < n →
        h'.memory (c.address + 32 + i) = s.heap.memory (b.address + 32 + i))
      (coalesced : ¬ShrinksBesideFree s.heap (b.address + 32) n → Coalesced bs → Coalesced bs') :
      Effect s bs (.reallocate (b.address + 32) n, c.address + 32)
        ⟨h', Function.update (Function.update s.live (b.address + 32) none) (c.address + 32)
          (some n)⟩ bs'
  | written {a : ℕ} {v : UInt8} {b : Block} (mem : b ∈ bs) (used : b.free = false)
      (lower : b.address + 32 ≤ a) (upper : a < b.address + 32 + b.size) :
      Effect s bs (.write a v, 0)
        ⟨{ s.heap with memory := storeByte s.heap.memory a v }, s.live⟩ bs

variable {s t : Client} {bs bs' : List Block} {e : Event}

theorem Consistent.live_block (K : Consistent s bs) {p : ℕ} (hp : (s.live p).isSome) :
    ∃ b ∈ bs, b.free = false ∧ p = b.address + 32 := (K.live_iff p).mp hp

theorem Consistent.block_live (K : Consistent s bs) {b : Block} (hb : b ∈ bs)
    (hused : b.free = false) : (s.live (b.address + 32)).isSome :=
  (K.live_iff _).mpr ⟨b, hb, hused, rfl⟩

theorem Consistent.usable_eq (K : Consistent s bs) {b : Block} (hb : b ∈ bs)
    (hused : b.free = false) : heapUsableSize s.heap (b.address + 32) = b.size :=
  heapUsableSize_of_mem K.wellFormed.layout hb hused

/-- Used blocks after a change, and the live pointers that go with them. -/
theorem Consistent.change {h' : Heap} {removed added : Option Block} {live : ℕ → Option ℕ}
    (K : Consistent s bs) (C : Change s.heap bs h' bs' removed added)
    (hr : ∀ b, removed = some b → b ∈ bs ∧ b.free = false ∧
      (live (b.address + 32) = none ∨ ∃ c, added = some c ∧ c.address = b.address))
    (ha : ∀ c, added = some c → c.free = false ∧ ∃ n, live (c.address + 32) = some n ∧ n ≤ c.size)
    (hother : ∀ p, (∀ b, removed = some b → p ≠ b.address + 32) →
      (∀ c, added = some c → p ≠ c.address + 32) → live p = s.live p) :
    Consistent ⟨h', live⟩ bs' := by
  have L := K.wellFormed.layout
  have L' := C.wellFormed.layout
  refine ⟨C.wellFormed, fun p => ?_, fun u hu hused n hn => ?_⟩
  · by_cases hpa : ∃ c, added = some c ∧ p = c.address + 32
    · obtain ⟨c, hc, rfl⟩ := hpa
      obtain ⟨hcused, n, hlive, -⟩ := ha c hc
      exact ⟨fun _ => ⟨c, (C.mem_iff c hcused).mpr (Or.inl hc), hcused, rfl⟩, fun _ => by
        simp [hlive]⟩
    by_cases hpr : ∃ b, removed = some b ∧ p = b.address + 32
    · obtain ⟨b, hb, rfl⟩ := hpr
      obtain ⟨hbm, hbused, hnone | ⟨c, hc, hcb⟩⟩ := hr b hb
      · refine ⟨fun hs => by simp [hnone] at hs, ?_⟩
        rintro ⟨u, hu, hused, heq⟩
        rcases (C.mem_iff u hused).mp hu with hadd | ⟨hm, hne⟩
        · exact absurd ⟨u, hadd, heq⟩ hpa
        · have := Tiles.eq_of_address L.tiles hbm hm (by omega)
          exact absurd (hb.trans (congrArg some this)) hne
      · exact absurd ⟨c, hc, by rw [hcb]⟩ hpa
    simp only [not_exists, not_and] at hpa hpr
    dsimp only
    rw [hother p hpr hpa, K.live_iff]
    constructor
    · rintro ⟨u, hu, hused, rfl⟩
      exact ⟨u, (C.mem_iff u hused).mpr (Or.inr ⟨hu, fun hb => hpr u hb rfl⟩), hused, rfl⟩
    · rintro ⟨u, hu, hused, rfl⟩
      rcases (C.mem_iff u hused).mp hu with hadd | ⟨hm, -⟩
      · exact absurd rfl (hpa u hadd)
      · exact ⟨u, hm, hused, rfl⟩
  · rcases (C.mem_iff u hused).mp hu with hadd | ⟨hm, hne⟩
    · obtain ⟨-, n', hlive, hle⟩ := ha u hadd
      obtain rfl : n' = n := Option.some.inj (hlive.symm.trans hn)
      exact hle
    · refine K.requested u hm hused n ((hother _ (fun b hb heq => ?_) fun c hc heq => ?_).symm.trans
        hn)
      · obtain ⟨hbm, -, -⟩ := hr b hb
        have := Tiles.eq_of_address L.tiles hbm hm (by omega)
        exact hne (hb.trans (congrArg some this))
      · exact C.fresh c hc u hm hused hne (by omega)

theorem Effect.consistent (K : Consistent s bs) (E : Effect s bs e t bs') : Consistent t bs' := by
  cases E with
  | refused => exact K
  | taken asked change used le =>
    refine K.change change (by simp) ?_ fun p _ hp => ?_
    · rintro c ⟨⟩
      exact ⟨used, _, Function.update_self .., le⟩
    · exact Function.update_of_ne (hp _ rfl) ..
  | returned gives mem used change =>
    refine K.change change ?_ (by simp) fun p hp _ => ?_
    · rintro b ⟨⟩
      exact ⟨mem, used, Or.inl (Function.update_self ..)⟩
    · exact Function.update_of_ne (hp _ rfl) ..
  | @moved n b c h' _ pos mem used change used' le =>
    refine K.change change ?_ ?_ fun p hp hp' => ?_
    · rintro _ ⟨⟩
      refine ⟨mem, used, ?_⟩
      by_cases hcb : c.address = b.address
      · exact Or.inr ⟨c, rfl, hcb⟩
      · rw [Function.update_of_ne (by omega), Function.update_self]
        exact Or.inl rfl
    · rintro _ ⟨⟩
      exact ⟨used', n, Function.update_self .., le⟩
    · rw [Function.update_of_ne (hp' _ rfl), Function.update_of_ne (hp _ rfl)]
  | written mem used lower upper =>
    refine ⟨(K.wellFormed.writePayload mem fun x hx => ?_).1, K.live_iff, K.requested⟩
    exact storeByte_of_ne (by omega) _

theorem Effect.region (E : Effect s bs e t bs') :
    t.heap.heapBegin = s.heap.heapBegin ∧ t.heap.heapEnd = s.heap.heapEnd := by
  cases E with
  | refused => exact ⟨rfl, rfl⟩
  | taken _ change => exact ⟨change.begin_eq, change.end_eq⟩
  | returned _ _ _ change => exact ⟨change.begin_eq, change.end_eq⟩
  | moved _ _ _ change => exact ⟨change.begin_eq, change.end_eq⟩
  | written => exact ⟨rfl, rfl⟩

theorem allocate_effect (K : Consistent s bs) {c : HeapCall} {n : ℕ} (hasks : asks c = some n)
    (hperform : perform s.heap c = heapAllocate s.heap n)
    (hcall : ∀ count size, c ≠ .callocate count size)
    (haccount : ∀ r, account s.live r c =
      if r = 0 then s.live else Function.update s.live r (some n)) (hmay : MayRefuse c) :
    ∃ r t bs', call s c = some (r, t) ∧ Effect s bs (c, r) t bs' := by
  rcases heapAllocate_cases K.wellFormed n with ⟨-, heq⟩ | ⟨h', bs', b, heq, C, hb, hle, -, hco⟩
  · exact ⟨0, s, bs, by simp [call, hperform, heq, haccount], .refused hmay⟩
  · exact ⟨_, _, bs', by simp [call, hperform, heq, haccount], .taken hasks C hb hle
      (fun count size hc => absurd hc (hcall count size)) hco⟩

/-- Every legal call is defined, and has one of the listed effects. -/
theorem call_effect (K : Consistent s bs) {c : HeapCall} (hl : Legal s c) :
    ∃ r t bs', call s c = some (r, t) ∧ Effect s bs (c, r) t bs' := by
  have hnull : ∀ b : Block, ¬b.address + 32 = 0 := fun b => by omega
  cases c with
  | allocate n => exact allocate_effect K (n := n) rfl rfl (by simp) (fun _ => rfl) trivial
  | callocate count size =>
    rcases heapCallocate_cases K.wellFormed count size with heq | ⟨h', bs', b, heq, C, hb, hle, hz, hco⟩
    · exact ⟨0, s, bs, by simp [call, perform, heq, account], .refused trivial⟩
    · refine ⟨_, _, bs', by simp [call, perform, heq, account], .taken rfl C hb hle ?_ hco⟩
      rintro _ _ ⟨⟩
      exact hz
  | reallocate p n =>
    rcases hl with rfl | hlive
    · exact allocate_effect K (n := n) (by simp [asks]) (by simp [perform, heapReallocate]) (by simp)
        (fun _ => by simp [account]) (Or.inl rfl)
    obtain ⟨b, hb, hused, rfl⟩ := K.live_block hlive
    by_cases h0 : n = 0
    · obtain ⟨bs', C, hco⟩ := release_change K.wellFormed hb hused
      exact ⟨0, _, bs', by simp [call, perform, heapReallocate, account, h0],
        .returned (Or.inr (by rw [h0])) hb hused C hco⟩
    rcases heapReallocate_cases K.wellFormed hb hused h0 with
      heq | ⟨h', bs', c, heq, C, hc, hle, -, hkeep, hco⟩
    · exact ⟨0, s, bs, by simp [call, perform, heq, account, h0], .refused (Or.inr h0)⟩
    · exact ⟨_, _, bs', by simp [call, perform, heq, account, h0],
        .moved h0 hb hused C hc hle hkeep hco⟩
  | release p =>
    rcases hl with rfl | hlive
    · have hdead : s.live 0 = none := by
        by_contra hne
        obtain ⟨b, -, -, heq⟩ := K.live_block (Option.isSome_iff_ne_none.mpr hne)
        omega
      have hlive : Function.update s.live 0 none = s.live :=
        Function.update_eq_self_iff.mpr hdead.symm
      exact ⟨0, s, bs, by simp [call, perform, account, heapRelease, payloadBlock_null, hlive],
        .refused rfl⟩
    obtain ⟨b, hb, hused, rfl⟩ := K.live_block hlive
    obtain ⟨bs', C, hco⟩ := release_change K.wellFormed hb hused
    exact ⟨0, _, bs', rfl, .returned (Or.inl rfl) hb hused C hco⟩
  | write a v =>
    obtain ⟨p, hlive, hlower, hupper⟩ := hl
    obtain ⟨b, hb, hused, rfl⟩ := K.live_block hlive
    rw [K.usable_eq hb hused] at hupper
    exact ⟨0, _, bs, rfl, .written hb hused hlower hupper⟩

theorem step_effect (K : Consistent s bs) (h : Step s e t) : ∃ bs', Effect s bs e t bs' := by
  obtain ⟨r, t', bs', hcall, E⟩ := call_effect K h.1
  have heq := hcall.symm.trans h.2
  simp only [Option.some.injEq, Prod.mk.injEq] at heq
  obtain ⟨rfl, rfl⟩ := heq
  exact ⟨bs', E⟩

/-- Where `heap_init` puts the heap inside a region that it accepts. -/
theorem heapInit_eq {m : Memory} {base size : ℕ} (hend : base + size < 2 ^ 64)
    (h0 : (heapInit (Heap.zero m) base size).1 = 0) : ∃ a n, 16 ∣ a ∧ 16 ∣ n ∧ 48 ≤ n ∧
      base ≤ a ∧ a + n ≤ base + size ∧ (heapInit (Heap.zero m) base size).2 =
        { memory := writeHeader m a ⟨n - 32, 0, 0, heapMagic, true⟩, heapBegin := a,
          heapEnd := a + n, firstBlock := a, allocationCount := 0, wrapped := false } := by
  have hraw : 48 < size → sub64 (add64 base 16) 1 = base + 15 := by
    intro hsize
    unfold add64 sub64
    omega
  have hsize : 48 < size := by
    by_contra hsmall
    refine absurd h0 ?_
    have hguard : size ≤ add64 (add64 (sub64 (alignDown (sub64 (add64 base heapAlignment) 1)) base)
        headerSize) heapAlignment := by
      simp only [alignDown, heapAlignment_eq, headerSize_eq, add64, sub64]
      omega
    simp only [heapInit, if_pos hguard]
    decide
  have hadjust : sub64 ((base + 15) / 16 * 16) base = (base + 15) / 16 * 16 - base :=
    sub64_eq (by omega) (by omega)
  have hsum : add64 (add64 ((base + 15) / 16 * 16 - base) 32) 16 =
      (base + 15) / 16 * 16 - base + 48 := by
    rw [add64_eq (show (base + 15) / 16 * 16 - base + 32 < 2 ^ 64 by omega), add64_eq (by omega)]
  simp only [heapInit, hraw hsize, alignDown, heapAlignment_eq, headerSize_eq, hadjust, hsum]
    at h0 ⊢
  by_cases hguard : size ≤ (base + 15) / 16 * 16 - base + 48
  · rw [if_pos hguard] at h0
    cases h0
  rw [if_neg hguard, sub64_eq (by omega) (by omega), sub64_eq (by omega) (by omega)]
  exact ⟨(base + 15) / 16 * 16, (size - ((base + 15) / 16 * 16 - base)) / 16 * 16, by omega,
    by omega, by omega, by omega, by omega, rfl⟩

/-- The one block that `heap_init` builds. -/
def Region.block (r : Region) : Block :=
  ⟨r.start.heap.heapBegin, r.start.heap.heapEnd - r.start.heap.heapBegin - 32, true⟩

theorem Region.start_consistent (r : Region) : Consistent r.start [r.block] := by
  obtain ⟨a, n, ha, hn, hle, hbase, hend, heq⟩ := heapInit_eq r.end_lt r.accepted
  have hpos := r.base_pos
  have hlt := r.end_lt
  have hblock : r.block = ⟨a, n - 32, true⟩ := by
    simp [Region.block, Region.start, heq]
  have hheader := header_writeHeader (m := r.memory) (a := a) (v := ⟨n - 32, 0, 0, heapMagic, true⟩)
    (by dsimp only; omega) (by simp) (by simp) heapMagic_lt
  have hlayout : Layout r.start.heap [r.block] := by
    rw [hblock, Region.start, heq]
    exact ⟨by dsimp only; omega, ha, by dsimp only; omega, rfl, by simp,
      ⟨rfl, by dsimp only; omega, by dsimp only; omega, by simp only [Tiles]; omega⟩,
      ⟨hheader, trivial⟩, rfl⟩
  refine ⟨⟨hlayout, ?_⟩, fun p => ?_, fun b _ _ n hn => ?_⟩
  · rw [hblock, Region.start, heq]
    rfl
  · constructor
    · intro hp
      cases hp
    · rintro ⟨b, hb, hused, -⟩
      obtain rfl := List.mem_singleton.mp hb
      cases hused
  · cases hn

/-- A consistent client of the heap in `r`. -/
structure Region.Holds (r : Region) (s : Client) (bs : List Block) : Prop
    extends Consistent s bs where
  begin_eq : s.heap.heapBegin = r.start.heap.heapBegin
  end_eq : s.heap.heapEnd = r.start.heap.heapEnd

theorem Region.start_holds (r : Region) : r.Holds r.start [r.block] :=
  ⟨r.start_consistent, rfl, rfl⟩

theorem Region.Holds.effect {r : Region} (K : r.Holds s bs) (E : Effect s bs e t bs') :
    r.Holds t bs' :=
  ⟨E.consistent K.toConsistent, E.region.1.trans K.begin_eq, E.region.2.trans K.end_eq⟩

theorem Region.run_holds (r : Region) {es : List Event} (h : Run Step r.start es s) :
    ∃ bs, r.Holds s bs := by
  refine h.invariant (fun s => ∃ bs, r.Holds s bs) (fun s e t hs hstep => ?_) ⟨_, r.start_holds⟩
  obtain ⟨bs, K⟩ := hs
  obtain ⟨bs', E⟩ := step_effect K.toConsistent hstep
  exact ⟨bs', K.effect E⟩

end JsOs.HeapRuns

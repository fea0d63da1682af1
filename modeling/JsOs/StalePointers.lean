import JsOs.StrayMagic

/-!
# Stale pointers

A client may also pass pointers that are no longer live to `heap_release` and `heap_reallocate`.
Where its old header is no header of the list any more, its magic number is gone for good, unless
the number comes from outside: from a client or from what was in the memory before.
-/

namespace JsOs.StalePointers

open ByteMemory MachineWords HeapModel HeapLayout HeapSurgery HeapFrames HeapOperations
open HeapChanges HeapRuns HeapCoalescing StrayMagic TransitionRuns

/-- A client and, for the record, the pointers that calls have returned to it. -/
structure Session where
  client : Client
  returned : List ℕ

/-- The byte does not make up the magic number with the bytes next to it. -/
def Unmagic (m : Memory) (address : ℕ) (value : UInt8) : Prop :=
  ∀ i < 4, ¬MagicAt (storeByte m address value) (address - i)

/-- Pointer arguments are null or have been returned earlier, live or not; a client never stores
the magic number. -/
def Permitted (s : Session) : HeapCall → Prop
  | .allocate _ => True
  | .callocate _ _ => True
  | .reallocate pointer _ => pointer = 0 ∨ pointer ∈ s.returned
  | .release pointer => pointer = 0 ∨ pointer ∈ s.returned
  | .write address value => Legal s.client (.write address value) ∧
      Unmagic s.client.heap.memory address value

instance (m : Memory) (address : ℕ) (value : UInt8) : Decidable (Unmagic m address value) :=
  inferInstanceAs (Decidable (∀ i < 4, _))

instance (s : Session) : ∀ c, Decidable (Permitted s c)
  | .allocate _ => .isTrue trivial
  | .callocate _ _ => .isTrue trivial
  | .reallocate p _ => inferInstanceAs (Decidable (p = 0 ∨ p ∈ s.returned))
  | .release p => inferInstanceAs (Decidable (p = 0 ∨ p ∈ s.returned))
  | .write a v => inferInstanceAs
      (Decidable (Legal s.client (.write a v) ∧ Unmagic s.client.heap.memory a v))

def sessionCall (s : Session) (c : HeapCall) : Option (ℕ × Session) :=
  (call s.client c).map fun (result, t) => (result, ⟨t, result :: s.returned⟩)

def SessionStep : Session → Event → Session → Prop := CallStep Permitted sessionCall

def Session.start (r : Region) : Session := ⟨r.start, []⟩

/-- The region does not hold the magic number before it is made a heap. -/
def Clean (r : Region) : Prop :=
  ∀ w, r.base ≤ w → w + 4 ≤ r.base + r.size → ¬MagicAt r.memory w

section Stale

variable {s t : Client} {bs : List Block} {p r : ℕ} {c : HeapCall}

/-- What stands before a stale pointer is no header, or the header of a free block. -/
theorem stale_cases (K : Consistent s bs) (T : Tidy s.heap bs) (hp : 16 ∣ p)
    (hdead : s.live p = none) :
    payloadBlock s.heap p = 0 ∨ s.heap.free (payloadBlock s.heap p) = true := by
  unfold payloadBlock
  rw [headerSize_eq]
  dsimp only
  split_ifs with hnull hrange hguard
  · exact .inl rfl
  · exact .inl rfl
  · exact .inl rfl
  · right
    have hmagic : s.heap.magic (p - 32) = heapMagic := by
      by_contra hne
      exact hguard (.inr hne)
    obtain ⟨b, hb, heq⟩ := T.strays (p - 32 + 24) (by omega) (by omega) ⟨by omega, hmagic⟩
    obtain rfl : p = b.address + 32 := by omega
    obtain ⟨xs, ys, rfl⟩ := List.append_of_mem hb
    rw [Nat.add_sub_cancel, (layout_iff_at.mp T.layout).free_eq]
    by_contra hused
    have hlive := K.block_live hb (Bool.eq_false_iff.mpr hused)
    rw [hdead] at hlive
    cases hlive

theorem stale_release (K : Consistent s bs) (T : Tidy s.heap bs) (hp : 16 ∣ p)
    (hdead : s.live p = none) : heapRelease s.heap p = s.heap :=
  if_pos (stale_cases K T hp hdead)

theorem stale_reallocate (K : Consistent s bs) (T : Tidy s.heap bs) (hp : 16 ∣ p) (h0 : p ≠ 0)
    (hdead : s.live p = none) (n : ℕ) : heapReallocate s.heap p n = some (0, s.heap) := by
  unfold heapReallocate
  rw [if_neg h0, stale_release K T hp hdead]
  by_cases hn : n = 0
  · rw [if_pos hn]
  · rw [if_neg hn]
    exact if_pos (stale_cases K T hp hdead)

theorem stale_usableSize (K : Consistent s bs) (T : Tidy s.heap bs) (hp : 16 ∣ p)
    (hdead : s.live p = none) : heapUsableSize s.heap p = 0 :=
  if_pos (stale_cases K T hp hdead)

/-- A call with a stale pointer changes nothing. -/
theorem stale_call (K : Consistent s bs) (T : Tidy s.heap bs) (hp : 16 ∣ p) (h0 : p ≠ 0)
    (hdead : s.live p = none) (hc : c = .release p ∨ ∃ n, c = .reallocate p n) :
    call s c = some (0, s) := by
  have hlive : Function.update s.live p none = s.live := Function.update_eq_self_iff.mpr hdead.symm
  rcases hc with rfl | ⟨n, rfl⟩
  · simp [call, perform, account, stale_release K T hp hdead, hlive]
  · simp [call, perform, account, stale_reallocate K T hp h0 hdead, hlive, h0]

end Stale

section Steps

variable {s t : Client} {bs bs' : List Block} {p r : ℕ} {c : HeapCall} {e : Event}

theorem call_tidy (K : Consistent s bs) (T : Tidy s.heap bs) (hl : Legal s c)
    (hwrite : ∀ a v, c = .write a v → Unmagic s.heap.memory a v) (h : call s c = some (r, t)) :
    ∃ bs', Tidy t.heap bs' := by
  obtain ⟨hperform, -⟩ := perform_of_call h
  cases c with
  | allocate n => exact T.allocate hperform
  | callocate count size => exact T.callocate K.wellFormed hperform
  | reallocate p n =>
    rcases hl with rfl | hlive
    · exact T.allocate (n := n) hperform
    · obtain ⟨b, hb, hused, rfl⟩ := K.live_block hlive
      by_cases h0 : n = 0
      · have hheap : heapRelease s.heap (b.address + 32) = t.heap := by
          rw [h0] at hperform
          exact (Prod.mk.inj (Option.some.inj hperform)).2
        rw [← hheap]
        exact T.release hb hused
      · exact T.reallocate K.wellFormed hb hused h0 hperform
  | release p =>
    rcases hl with rfl | hlive
    · have hheap := (Prod.mk.inj (Option.some.inj hperform)).2
      rw [← hheap, heapRelease, payloadBlock_null, if_pos (Or.inl rfl)]
      exact ⟨bs, T⟩
    · obtain ⟨b, hb, hused, rfl⟩ := K.live_block hlive
      have hheap := (Prod.mk.inj (Option.some.inj hperform)).2
      rw [← hheap]
      exact T.release hb hused
  | write a v =>
    obtain ⟨p, hlive, hlower, hupper⟩ := hl
    obtain ⟨b, hb, hused, rfl⟩ := K.live_block hlive
    rw [K.usable_eq hb hused] at hupper
    have hheap := (Prod.mk.inj (Option.some.inj hperform)).2
    rw [← hheap]
    have W := (K.wellFormed.writePayload hb (m := storeByte s.heap.memory a v) fun x hx =>
      storeByte_of_ne (by omega) v).1
    refine ⟨bs, T.writePayload W.layout fun w hw => ?_⟩
    by_cases hin : w ≤ a ∧ a < w + 4
    · have hnot := hwrite a v rfl (a - w) (by omega)
      rw [Nat.sub_sub_self hin.1] at hnot
      exact absurd hw hnot
    · exact hw.congr fun x h₁ h₂ => storeByte_of_ne (by omega) v

theorem effect_result_aligned (K : Consistent t bs') (E : Effect s bs e t bs') : 16 ∣ e.2 := by
  have hblock {b : Block} (hb : b ∈ bs') : 16 ∣ b.address + 32 := by
    have L := K.wellFormed.layout
    have hba := (L.tiles.aligned L.begin_aligned).2 b hb
    omega
  cases E with
  | refused => exact dvd_zero 16
  | taken _ change used => exact hblock ((change.mem_iff _ used).mpr (.inl rfl))
  | returned => exact dvd_zero 16
  | moved _ _ _ change used => exact hblock ((change.mem_iff _ used).mpr (.inl rfl))
  | written => exact dvd_zero 16

/-- The heap of a session is tidy, and all returned pointers are aligned. -/
structure Sound (s : Session) (bs : List Block) : Prop where
  consistent : Consistent s.client bs
  tidy : Tidy s.client.heap bs
  aligned : ∀ p ∈ s.returned, 16 ∣ p

variable {u v : Session}

theorem Sound.legal_step (S : Sound u bs) (hl : Legal u.client c)
    (hwrite : ∀ a x, c = .write a x → Unmagic u.client.heap.memory a x)
    (h : sessionCall u c = some (r, v)) : ∃ bs', Sound v bs' := by
  obtain ⟨⟨r', t⟩, hcall, heq⟩ := Option.map_eq_some_iff.mp h
  cases heq
  obtain ⟨r'', t', bs', hcall', E⟩ := call_effect S.consistent hl
  cases hcall.symm.trans hcall'
  have K := E.consistent S.consistent
  obtain ⟨cs, T⟩ := call_tidy S.consistent S.tidy hl hwrite hcall
  obtain rfl := layout_unique T.layout K.wellFormed.layout
  refine ⟨cs, K, T, fun p hp => ?_⟩
  rcases List.mem_cons.mp hp with rfl | hp
  · exact effect_result_aligned K E
  · exact S.aligned p hp

theorem Sound.stale_step (S : Sound u bs) (hp : p ∈ u.returned) (h0 : p ≠ 0)
    (hdead : u.client.live p = none) (hc : c = .release p ∨ ∃ n, c = .reallocate p n)
    (h : sessionCall u c = some (r, v)) : Sound v bs := by
  unfold sessionCall at h
  rw [stale_call S.consistent S.tidy (S.aligned p hp) h0 hdead hc] at h
  cases h
  refine ⟨S.consistent, S.tidy, fun q hq => ?_⟩
  rcases List.mem_cons.mp hq with rfl | hq
  · exact dvd_zero 16
  · exact S.aligned q hq

theorem Sound.step (S : Sound u bs) (h : SessionStep u e v) : ∃ bs', Sound v bs' := by
  obtain ⟨hpermitted, hcall⟩ := h
  obtain ⟨c, r⟩ := e
  -- a pointer that has been returned is null, live or stale
  have hpointer {p : ℕ} (hp : p = 0 ∨ p ∈ u.returned) : (p = 0 ∨ (u.client.live p).isSome) ∨
      p ∈ u.returned ∧ p ≠ 0 ∧ u.client.live p = none := by
    by_cases h0 : p = 0
    · exact .inl (.inl h0)
    · cases hlive : u.client.live p with
      | some n => exact .inl (.inr rfl)
      | none => exact .inr ⟨hp.resolve_left h0, h0, rfl⟩
  cases c with
  | allocate n => exact S.legal_step (c := .allocate n) trivial (by simp) hcall
  | callocate count size => exact S.legal_step (c := .callocate count size) trivial (by simp) hcall
  | reallocate p n =>
    rcases hpointer hpermitted with hl | ⟨hp, h0, hdead⟩
    · exact S.legal_step (c := .reallocate p n) hl (by simp) hcall
    · exact ⟨bs, S.stale_step hp h0 hdead (.inr ⟨n, rfl⟩) hcall⟩
  | release p =>
    rcases hpointer hpermitted with hl | ⟨hp, h0, hdead⟩
    · exact S.legal_step (c := .release p) hl (by simp) hcall
    · exact ⟨bs, S.stale_step hp h0 hdead (.inl rfl) hcall⟩
  | write a x =>
    refine S.legal_step hpermitted.1 (fun a' x' heq => ?_) hcall
    cases heq
    exact hpermitted.2

end Steps

section Runs

variable {r : Region} {s : Session} {es : List Event} {p : ℕ}

theorem Clean.start_tidy (hclean : Clean r) : Tidy r.start.heap [r.block] := by
  refine ⟨r.start_consistent.wellFormed.layout, fun w h₁ h₂ hw => ⟨r.block, by simp, ?_⟩⟩
  obtain ⟨a, n, ha, -, -, hbase, hend, heq⟩ := heapInit_eq r.end_lt r.accepted
  unfold Region.start at h₁ h₂ hw
  unfold Region.block Region.start
  rw [heq] at h₁ h₂ hw ⊢
  rcases MagicAt.of_writeHeader hw ha (dvd_zero 16) with hplace | hold
  · exact hplace
  · exact absurd hold (hclean w (hbase.trans h₁) (h₂.trans hend))

theorem Clean.run_sound (hclean : Clean r) (hrun : Run SessionStep (.start r) es s) :
    ∃ bs, Sound s bs :=
  hrun.invariant (fun s => ∃ bs, Sound s bs)
    (fun _ _ _ hs hstep => hs.elim fun _ S => S.step hstep)
    ⟨_, r.start_consistent, hclean.start_tidy, fun _ hp => absurd hp List.not_mem_nil⟩

/-- Stale pointers are harmless as long as the magic number comes from the heap alone. -/
theorem run_stale_harmless (hclean : Clean r) (hrun : Run SessionStep (.start r) es s)
    (hreturned : p ∈ s.returned) (h0 : p ≠ 0) (hdead : s.client.live p = none) :
    heapRelease s.client.heap p = s.client.heap ∧
      (∀ n, heapReallocate s.client.heap p n = some (0, s.client.heap)) ∧
      heapUsableSize s.client.heap p = 0 := by
  obtain ⟨bs, S⟩ := hclean.run_sound hrun
  have hp := S.aligned p hreturned
  exact ⟨stale_release S.consistent S.tidy hp hdead,
    stale_reallocate S.consistent S.tidy hp h0 hdead,
    stale_usableSize S.consistent S.tidy hp hdead⟩

theorem smallRegion_clean : Clean smallRegion := by
  rintro w - - ⟨-, hload⟩
  cases hload

/-- Two blocks are released and merged, and a larger block is put over both; the pointer to the
second one is passed to all three calls. -/
theorem run_stale_harmless_smallRegion : ∃ s,
    Run SessionStep (.start smallRegion)
      [(.allocate 16, 4128), (.allocate 16, 4176), (.release 4176, 0), (.release 4128, 0),
        (.allocate 64, 4128), (.release 4176, 0)] s ∧
      heapRelease s.client.heap 4176 = s.client.heap ∧
      (∀ n, heapReallocate s.client.heap 4176 n = some (0, s.client.heap)) ∧
      heapUsableSize s.client.heap 4176 = 0 := by
  obtain ⟨s, hrun, hview⟩ := Run.of_nextCall (s := Session.start smallRegion)
    (fun s => (decide (4176 ∈ s.returned), s.client.live 4176))
    (show (List.foldlM (nextCall Permitted sessionCall) _
      [(.allocate 16, 4128), (.allocate 16, 4176), (.release 4176, 0), (.release 4128, 0),
        (.allocate 64, 4128), (.release 4176, 0)]).map _ = some (true, none) by
      decide +kernel)
  obtain ⟨hreturned, hdead⟩ := Prod.mk.inj hview
  exact ⟨s, hrun, run_stale_harmless smallRegion_clean hrun (of_decide_eq_true hreturned)
    (by decide) hdead⟩

/-- The region of `smallRegion` with the magic number in it. -/
def markedRegion : Region :=
  { smallRegion with
    memory := store (store (fun _ => 0) 4264 4 heapMagic) 4240 8 5
    accepted := by decide +kernel }

/-- `heap_reallocate` copies the number onto the place of an old header, and the pointer that was
released there counts as a used block of 5 bytes. -/
theorem stale_pointer_accepted : ∃ s,
    Run SessionStep (.start markedRegion)
      [(.allocate 16, 4128), (.allocate 16, 4176), (.release 4176, 0), (.release 4128, 0),
        (.allocate 64, 4128), (.allocate 48, 4224), (.allocate 16, 4304), (.release 4128, 0),
        (.reallocate 4224 64, 4128)] s ∧
      4176 ∈ s.returned ∧ s.client.live 4176 = none ∧ heapUsableSize s.client.heap 4176 = 5 ∧
      (heapRelease s.client.heap 4176).allocationCount ≠ s.client.heap.allocationCount := by
  obtain ⟨s, hrun, hview⟩ := Run.of_nextCall (s := Session.start markedRegion)
    (fun s => (decide (4176 ∈ s.returned), s.client.live 4176,
      heapUsableSize s.client.heap 4176, decide
        ((heapRelease s.client.heap 4176).allocationCount ≠ s.client.heap.allocationCount)))
    (show (List.foldlM (nextCall Permitted sessionCall) _
      [(.allocate 16, 4128), (.allocate 16, 4176), (.release 4176, 0), (.release 4128, 0),
        (.allocate 64, 4128), (.allocate 48, 4224), (.allocate 16, 4304), (.release 4128, 0),
        (.reallocate 4224 64, 4128)]).map _ = some (true, none, 5, true) by decide +kernel)
  simp only [Prod.mk.injEq, decide_eq_true_eq] at hview
  exact ⟨s, hrun, hview⟩

end Runs

end JsOs.StalePointers

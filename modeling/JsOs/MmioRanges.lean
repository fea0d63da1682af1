import JsOs.MmioModel
import JsOs.PageMapping

/-!
# The pages of a device

The loop of `platform_map_mmio` goes once through the pages of the range, as long as rounding up the
end of the range does not wrap. Where it wraps the end is 0, and there are no pages at all.
-/

namespace JsOs.MmioRanges

open MachineWords PageTableModel PageMapping MmioModel

/-- The pages one after the other, up to the first that cannot be mapped. -/
def mapAll (cpu : Processor) : List ℕ → PlatformState → List MmioCall →
    Bool × PlatformState × List MmioCall
  | [], st, calls => (true, st, calls)
  | page :: pages, st, calls =>
    let (mapped, st) := mapMmioPage cpu st (add64 st.directMapOffset page) page
    let calls := calls ++ [⟨page, mapped⟩]
    if !mapped then (false, st, calls) else mapAll cpu pages st calls

/-- The `n` pages from `start` on. -/
def pagesFrom (start n : ℕ) : List ℕ := (List.range n).map (start + 4096 * ·)

/-- The variable `end`. -/
def lastPage (physicalAddress length : ℕ) : ℕ :=
  (physicalAddress + length + 4095) % 2 ^ 64 / 4096 * 4096

/-- The pages that `platform_map_mmio` goes through. -/
def mmioPages (physicalAddress length : ℕ) : List ℕ :=
  pagesFrom (physicalAddress / 4096 * 4096)
    ((lastPage physicalAddress length - physicalAddress / 4096 * 4096) / 4096)

section Loop

variable {cpu : Processor} {st : PlatformState} {start n last physicalAddress length : ℕ}

theorem pagesFrom_succ (start n : ℕ) :
    pagesFrom start (n + 1) = start :: pagesFrom (start + 4096) n := by
  unfold pagesFrom
  rw [List.range_succ_eq_map, List.map_cons, List.map_map]
  congr 1
  apply List.map_congr_left
  intro k _
  simp only [Function.comp_apply]
  omega

theorem mapPages_stop (hn : last ≤ start) {fuel : ℕ} (hfuel : 0 < fuel) (st : PlatformState)
    (calls : List MmioCall) :
    mapPages cpu last fuel start st calls = some (true, st, calls) := by
  obtain ⟨fuel, rfl⟩ := Nat.exists_eq_add_of_lt hfuel
  rw [Nat.zero_add, mapPages, if_neg hn.not_gt]

theorem mapPages_eq (hlast : start + 4096 * n < 2 ^ 64) {fuel : ℕ} (hfuel : n < fuel)
    (st : PlatformState) (calls : List MmioCall) :
    mapPages cpu (start + 4096 * n) fuel start st calls =
      some (mapAll cpu (pagesFrom start n) st calls) := by
  induction n generalizing start fuel st calls with
  | zero => exact mapPages_stop (le_refl _) hfuel st calls
  | succ n ih =>
    obtain ⟨fuel, rfl⟩ := Nat.exists_eq_add_of_lt hfuel
    have hsum : start + 4096 * (n + 1) = start + 4096 + 4096 * n := by
      rw [Nat.mul_succ]
      omega
    rw [hsum] at hlast ⊢
    have hfits : start + 4096 < 2 ^ 64 := by omega
    have hnext : add64 start pageSize = start + 4096 := add64_eq hfits
    rw [mapPages, if_pos (by omega), pagesFrom_succ, mapAll]
    dsimp only
    split_ifs with hmapped
    · rfl
    · rw [hnext]
      exact ih hlast (by omega) _ _

theorem refused_iff (hlength : length < 2 ^ 64) : Refused st physicalAddress length ↔
    st.directMapOffset = 0 ∨ st.executableVirtualBase = 0 ∨ length = 0 ∨
      2 ^ 64 ≤ physicalAddress + length := by
  have hmax : sub64 sizeMax length = 2 ^ 64 - 1 - length := by
    unfold sub64 sizeMax
    omega
  unfold Refused
  rw [hmax]
  omega

theorem lastPage_eq (physicalAddress length : ℕ) :
    sub64 (add64 (add64 physicalAddress length) pageSize) 1 &&& not64 (pageSize - 1) =
      lastPage physicalAddress length := by
  have hround : sub64 (add64 (add64 physicalAddress length) pageSize) 1 =
      (physicalAddress + length + 4095) % 2 ^ 64 := by
    unfold sub64 add64 pageSize
    omega
  rw [hround]
  exact pageMask_eq (Nat.mod_lt _ (by decide))

/-- The loop never runs out of fuel, and what it goes through are the pages of the range. -/
theorem platformMapMmio_eq (hphysical : physicalAddress < 2 ^ 64)
    (haccepted : ¬Refused st physicalAddress length) :
    platformMapMmio cpu st physicalAddress length =
      let (mapped, st', calls) := mapAll cpu (mmioPages physicalAddress length) st []
      some (if mapped then add64 st'.directMapOffset physicalAddress else 0, st', calls) := by
  unfold platformMapMmio
  rw [if_neg haccepted]
  dsimp only
  rw [lastPage_eq, pageMask_eq hphysical]
  by_cases hle : physicalAddress / 4096 * 4096 ≤ lastPage physicalAddress length
  · have hlast : lastPage physicalAddress length = physicalAddress / 4096 * 4096 + 4096 *
        ((lastPage physicalAddress length - physicalAddress / 4096 * 4096) / 4096) := by
      unfold lastPage at hle ⊢
      omega
    have hbound : lastPage physicalAddress length < 2 ^ 64 := by
      unfold lastPage
      omega
    have hcount : (lastPage physicalAddress length - physicalAddress / 4096 * 4096) / 4096 <
        mmioFuel := by
      unfold mmioFuel
      omega
    have hloop := @mapPages_eq cpu (physicalAddress / 4096 * 4096)
      ((lastPage physicalAddress length - physicalAddress / 4096 * 4096) / 4096)
      (hlast ▸ hbound) mmioFuel hcount st []
    rw [← hlast] at hloop
    rw [hloop]
    rfl
  · have hnone : mmioPages physicalAddress length = [] := by
      unfold mmioPages
      rw [Nat.sub_eq_zero_of_le (Nat.le_of_not_le hle)]
      rfl
    rw [mapPages_stop (Nat.le_of_not_le hle) (by unfold mmioFuel; decide), hnone]
    rfl

end Loop

section Coverage

variable {cpu : Processor} {st : PlatformState} {physicalAddress length : ℕ}

/-- The page contains a byte of the range. -/
def Touches (physicalAddress length page : ℕ) : Prop :=
  page % 4096 = 0 ∧ ∃ byte, physicalAddress ≤ byte ∧ byte < physicalAddress + length ∧
    page ≤ byte ∧ byte < page + 4096

/-- Exactly the pages of the range have been asked for, each once, and all of them mapped. -/
structure Covers (physicalAddress length : ℕ) (calls : List MmioCall) : Prop where
  succeeded : ∀ call ∈ calls, call.mapped = true
  once : (calls.map (·.page)).Nodup
  exact : ∀ page, page ∈ calls.map (·.page) ↔ Touches physicalAddress length page

/-- Where every page is mapped, every page is on the record. -/
theorem mapAll_calls {pages : List ℕ} {st st' : PlatformState} {calls calls' : List MmioCall}
    (h : mapAll cpu pages st calls = (true, st', calls')) :
    calls' = calls ++ pages.map (⟨·, true⟩) := by
  induction pages generalizing st calls with
  | nil =>
    cases h
    exact (List.append_nil _).symm
  | cons page pages ih =>
    rw [mapAll] at h
    cases hmap : mapMmioPage cpu st (add64 st.directMapOffset page) page with
    | mk mapped st₁ =>
      rw [hmap] at h
      cases mapped with
      | false => cases h
      | true =>
        rw [ih h, List.append_assoc]
        rfl

theorem mem_pagesFrom {start n page : ℕ} :
    page ∈ pagesFrom start n ↔ ∃ k, k < n ∧ page = start + 4096 * k := by
  simp only [pagesFrom, List.mem_map, List.mem_range, eq_comm]

theorem pagesFrom_nodup (start n : ℕ) : (pagesFrom start n).Nodup :=
  List.nodup_range.map fun k k' h => by
    have hsum : start + 4096 * k = start + 4096 * k' := h
    omega

/-- Without a wrap the pages are those of the range. -/
theorem mem_mmioPages (hlength : length ≠ 0) (hround : physicalAddress + length + 4095 < 2 ^ 64)
    (page : ℕ) : page ∈ mmioPages physicalAddress length ↔ Touches physicalAddress length page := by
  unfold mmioPages lastPage Touches
  rw [mem_pagesFrom, Nat.mod_eq_of_lt hround]
  constructor
  · rintro ⟨k, hk, rfl⟩
    refine ⟨by omega, max physicalAddress (physicalAddress / 4096 * 4096 + 4096 * k), ?_⟩
    omega
  · rintro ⟨hpage, byte, hlo, hhi, hle, hlt⟩
    refine ⟨(page - physicalAddress / 4096 * 4096) / 4096, ?_, ?_⟩ <;> omega

/-- With a wrap there are none. -/
theorem mmioPages_wrap (hsum : physicalAddress + length < 2 ^ 64)
    (hround : 2 ^ 64 ≤ physicalAddress + length + 4095) : mmioPages physicalAddress length = [] := by
  have hzero : lastPage physicalAddress length = 0 := by
    unfold lastPage
    omega
  unfold mmioPages
  rw [hzero, Nat.zero_sub]
  rfl

/-- Where every page is mapped, the record covers the range. -/
theorem mapAll_covers {st' : PlatformState} {calls : List MmioCall} (hlength : length ≠ 0)
    (hround : physicalAddress + length + 4095 < 2 ^ 64)
    (h : mapAll cpu (mmioPages physicalAddress length) st [] = (true, st', calls)) :
    Covers physicalAddress length calls := by
  have hpages : (mmioPages physicalAddress length).map
      ((fun call : MmioCall => call.page) ∘ (⟨·, true⟩)) =
      mmioPages physicalAddress length := List.map_id _
  rw [mapAll_calls h, List.nil_append]
  refine ⟨fun call hcall => ?_, ?_, fun page => ?_⟩
  · obtain ⟨page, -, rfl⟩ := List.mem_map.mp hcall
    rfl
  · rw [List.map_map, hpages]
    exact pagesFrom_nodup _ _
  · rw [List.map_map, hpages]
    exact mem_mmioPages hlength hround page

/-- A pointer that is not null says that the range is mapped, unless rounding up its end wraps. -/
theorem platformMapMmio_covers_iff (cpu : Processor) (st : PlatformState)
    (hphysical : physicalAddress < 2 ^ 64) (hlength : length < 2 ^ 64) :
    ∃ pointer st' calls,
      platformMapMmio cpu st physicalAddress length = some (pointer, st', calls) ∧
      ((pointer ≠ 0 → Covers physicalAddress length calls) ↔
        physicalAddress + length + 4095 < 2 ^ 64 ∨ Refused st physicalAddress length ∨
          add64 st.directMapOffset physicalAddress = 0) := by
  by_cases hrefused : Refused st physicalAddress length
  · have hnull : platformMapMmio cpu st physicalAddress length = some (0, st, []) := by
      unfold platformMapMmio
      rw [if_pos hrefused]
    exact ⟨0, st, [], hnull, iff_of_true (fun h => absurd rfl h) (Or.inr (Or.inl hrefused))⟩
  obtain ⟨hsum, hpos⟩ : physicalAddress + length < 2 ^ 64 ∧ length ≠ 0 := by
    rw [refused_iff hlength] at hrefused
    omega
  have heq := @platformMapMmio_eq cpu st _ _ hphysical hrefused
  by_cases hround : physicalAddress + length + 4095 < 2 ^ 64
  · cases hall : mapAll cpu (mmioPages physicalAddress length) st [] with
    | mk mapped rest =>
      obtain ⟨st', calls⟩ := rest
      rw [hall] at heq
      refine ⟨_, st', calls, heq, iff_of_true (fun hpointer => ?_) (Or.inl hround)⟩
      cases mapped with
      | false => exact absurd rfl hpointer
      | true => exact mapAll_covers hpos hround hall
  · rw [mmioPages_wrap hsum (by omega)] at heq
    refine ⟨_, st, [], heq, ?_⟩
    rw [or_iff_right hround, or_iff_right hrefused]
    constructor
    · intro h
      by_contra hpointer
      -- the page of the first byte has not been asked for
      have htouched : Touches physicalAddress length (physicalAddress / 4096 * 4096) :=
        ⟨by omega, physicalAddress, le_refl _, by omega, by omega, by omega⟩
      exact List.not_mem_nil (((h hpointer).exact _).mpr htouched)
    · intro h hpointer
      exact absurd h hpointer

/-- The registers of the local interrupt controller. -/
theorem platformMapMmio_covers_iff_apic : ∃ pointer st' calls,
    platformMapMmio freshProcessor freshPlatform 0xfee00000 0x1000 = some (pointer, st', calls) ∧
      (pointer ≠ 0 → Covers 0xfee00000 0x1000 calls) := by
  obtain ⟨pointer, st', calls, heq, hcovers⟩ := platformMapMmio_covers_iff freshProcessor
    freshPlatform (show 0xfee00000 < 2 ^ 64 by decide) (show 0x1000 < 2 ^ 64 by decide)
  exact ⟨pointer, st', calls, heq, hcovers.mpr (Or.inl (by decide))⟩

/-- The first byte of the last page: nothing is mapped, but there is a pointer. -/
theorem platformMapMmio_misses_last :
    platformMapMmio freshProcessor freshPlatform (2 ^ 64 - 4096) 1 =
        some (0xffff7ffffffff000, freshPlatform, []) ∧
      ¬Covers (2 ^ 64 - 4096) 1 [] := by
  have haccepted : ¬Refused freshPlatform (2 ^ 64 - 4096) 1 := by decide
  refine ⟨?_, fun h => ?_⟩
  · rw [platformMapMmio_eq (by decide) haccepted, mmioPages_wrap (by decide) (by decide)]
    rfl
  · have htouched : Touches (2 ^ 64 - 4096) 1 (2 ^ 64 - 4096) :=
      ⟨by decide, 2 ^ 64 - 4096, by decide⟩
    exact List.not_mem_nil ((h.exact _).mpr htouched)

end Coverage

end JsOs.MmioRanges

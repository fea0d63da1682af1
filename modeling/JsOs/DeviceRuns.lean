import JsOs.ExistingMappings
import JsOs.TransitionRuns

/-!
# Mapping devices one after the other

Runs of calls of `platform_map_mmio`. The pages of the devices that are mapped stay mapped, whatever
is mapped later or cannot be mapped.
-/

namespace JsOs.DeviceRuns

open ByteMemory MachineWords PageTableModel PageWalk PageMapping MmioModel MmioRanges
open ExistingMappings TransitionRuns

section Translations

variable {cpu : Processor} {st : PlatformState} {size va pa a : ℕ} {m : Memory}

theorem page_div_span (hva : va % 4096 = 0) {k : ℕ} (hk : k < 4096) (n : ℕ) :
    (va + k) / span n = va / span n ∧ (va + k) % span n = va % span n + k := by
  obtain ⟨q, rfl⟩ := Nat.dvd_of_mod_eq_zero hva
  obtain ⟨d, hd⟩ := page_dvd_span n
  have hpos : 0 < d := Nat.pos_of_ne_zero fun h => by simp [h, span] at hd
  have hlt := Nat.mod_lt q hpos
  rw [hd, ← Nat.div_div_eq_div_mul, ← Nat.div_div_eq_div_mul, Nat.mod_mul, Nat.mod_mul,
    show (4096 * q + k) / 4096 = q by omega, show 4096 * q / 4096 = q by omega]
  omega

/-- The bytes of a page are mapped together. -/
theorem translate_add (hva : va % 4096 = 0) {k : ℕ} (hk : k < 4096) :
    PageWalk.translate cpu m (va + k) = (PageWalk.translate cpu m va).map (· + k) := by
  have hindex : index (va + k) = index va := funext fun n =>
    Fin.ext (congrArg (· % 512) (page_div_span hva hk n).1)
  unfold PageWalk.translate
  rw [hindex, Option.map_map]
  congr 1
  funext found
  rw [Function.comp_apply, (page_div_span hva hk found.1).2, Nat.add_assoc]

/-- A page that the call is not about is mapped as before. -/
theorem mapMmioPage_others (T : PageTables cpu st size) (hva : va % 4096 = 0)
    (hcanonical : Canonical cpu va) (hpa : pa < 2 ^ 52) (hpa' : pa % 4096 = 0) (ha : a % 4096 = 0)
    (ha' : Canonical cpu a) (hne : a ≠ va) :
    PageWalk.translate cpu (mapMmioPage cpu st va pa).2.memory a =
      PageWalk.translate cpu st.memory a := by
  obtain ⟨result, G, -, -⟩ := mapMmioPage_grafts T hva hpa hpa'
  unfold PageWalk.translate
  rw [G.others _ (ha'.index_ne hcanonical ha hva hne)]

/-- The page itself is mapped as asked where the call returns true, and else as before. -/
theorem mapMmioPage_self (T : PageTables cpu st size) (hva : va % 4096 = 0) (hpa : pa < 2 ^ 52)
    (hpa' : pa % 4096 = 0) :
    PageWalk.translate cpu (mapMmioPage cpu st va pa).2.memory va =
      if (mapMmioPage cpu st va pa).1 = true then some pa
      else PageWalk.translate cpu st.memory va := by
  obtain ⟨result, G, htrue, hfalse⟩ := mapMmioPage_grafts T hva hpa hpa'
  unfold PageWalk.translate
  rw [G.result_eq]
  split_ifs with hmapped
  · obtain ⟨found, rfl, hsum⟩ := htrue hmapped
    rw [Option.map_some, hsum]
  · rw [hfalse (Bool.eq_false_iff.mpr hmapped)]

end Translations

section Devices

structure Device where
  physicalAddress : ℕ
  length : ℕ
  deriving DecidableEq

/-- A call of `platform_map_mmio` for a device, with the pointer that it returns. -/
def DeviceStep (cpu : Processor) (st : PlatformState) (e : Device × ℕ) (st' : PlatformState) : Prop :=
  ∃ calls, platformMapMmio cpu st e.1.physicalAddress e.1.length = some (e.2, st', calls)

/-- The direct map begins at a page of the upper half of the address space. -/
structure UpperHalf (cpu : Processor) (directMapOffset : ℕ) : Prop where
  aligned : directMapOffset % 4096 = 0
  upper : 2 ^ 64 - span (topLevel cpu + 1) / 2 ≤ directMapOffset

theorem UpperHalf.offset_pos {directMapOffset : ℕ} (U : UpperHalf cpu directMapOffset) :
    0 < directMapOffset := by
  have hupper := U.upper
  have hspan : span (topLevel cpu + 1) ≤ 2 ^ 57 :=
    Nat.pow_le_pow_right (by decide) (by have := topLevel_le cpu; omega)
  omega

/-- The device lies in physical memory, and the direct map has room for it. -/
structure InReach (directMapOffset : ℕ) (device : Device) : Prop where
  physical : device.physicalAddress + device.length ≤ 2 ^ 52
  room : directMapOffset + device.physicalAddress + device.length ≤ 2 ^ 64

/-- A page that the direct map has room for. -/
structure PageInReach (directMapOffset page : ℕ) : Prop where
  aligned : page % 4096 = 0
  physical : page < 2 ^ 52
  room : directMapOffset + page < 2 ^ 64

/-- The direct map is what it says at this page. -/
def Direct (cpu : Processor) (st : PlatformState) (page : ℕ) : Prop :=
  PageWalk.translate cpu st.memory (st.directMapOffset + page) = some page

variable {cpu : Processor} {st st' : PlatformState} {size page page' a : ℕ} {device : Device}

theorem UpperHalf.canonical (U : UpperHalf cpu st.directMapOffset)
    (h : PageInReach st.directMapOffset page) : Canonical cpu (st.directMapOffset + page) :=
  Or.inr ⟨U.upper.trans (Nat.le_add_right _ _), h.room⟩

theorem UpperHalf.page_aligned (U : UpperHalf cpu st.directMapOffset)
    (h : PageInReach st.directMapOffset page) : (st.directMapOffset + page) % 4096 = 0 := by
  have haligned := U.aligned
  have haligned' := h.aligned
  omega

/-- The pages of a device in reach are in reach, and they are those that it touches. -/
theorem InReach.pages (h : InReach st.directMapOffset device) (hlength : device.length ≠ 0) :
    ∀ page, page ∈ mmioPages device.physicalAddress device.length ↔
      Touches device.physicalAddress device.length page := by
  have hphysical := h.physical
  exact mem_mmioPages hlength (by omega)

theorem InReach.pageInReach (h : InReach st.directMapOffset device)
    (hpage : Touches device.physicalAddress device.length page) :
    PageInReach st.directMapOffset page := by
  have hphysical := h.physical
  have hroom := h.room
  obtain ⟨haligned, byte, hlo, hhi, hle, hlt⟩ := hpage
  exact ⟨haligned, by omega, by omega⟩

/-- What `map_mmio_page` does to the translations when it is called for a page of the direct map. -/
theorem mapMmioPage_direct (T : PageTables cpu st size) (U : UpperHalf cpu st.directMapOffset)
    (h : PageInReach st.directMapOffset page) :
    ((mapMmioPage cpu st (add64 st.directMapOffset page) page).1 = true →
        Direct cpu (mapMmioPage cpu st (add64 st.directMapOffset page) page).2 page) ∧
      (∀ page', PageInReach st.directMapOffset page' → Direct cpu st page' →
        Direct cpu (mapMmioPage cpu st (add64 st.directMapOffset page) page).2 page') ∧
      ∀ a, a % 4096 = 0 → Canonical cpu a → a ≠ st.directMapOffset + page →
        PageWalk.translate cpu (mapMmioPage cpu st (add64 st.directMapOffset page) page).2.memory a =
          PageWalk.translate cpu st.memory a := by
  have hself := mapMmioPage_self T (U.page_aligned h) h.physical h.aligned
  have hothers := fun a => mapMmioPage_others T (U.page_aligned h) (U.canonical h) h.physical h.aligned
    (a := a)
  have hsame := (mapMmioPage_same cpu st (add64 st.directMapOffset page) page).directMapOffset
  unfold Direct
  rw [hsame, add64_eq h.room]
  refine ⟨fun hmapped => by rw [hself, if_pos hmapped], fun page' h' hdirect => ?_, hothers⟩
  by_cases heq : page' = page
  · subst heq
    rw [hself, hdirect, ite_self]
  · rw [hothers _ (U.page_aligned h') (U.canonical h') (by omega), hdirect]

/-- What is kept while the pages in `asked` are mapped: the tree of tables, the direct map where it
is right, and all other translations. -/
structure Keeps (cpu : Processor) (size : ℕ) (asked : ℕ → Prop) (st st' : PlatformState) : Prop where
  tables : PageTables cpu st' size
  same : SameConfiguration st st'
  direct : ∀ page, PageInReach st.directMapOffset page → Direct cpu st page → Direct cpu st' page
  others : ∀ a, a % 4096 = 0 → Canonical cpu a →
    (∀ page, asked page → a ≠ st.directMapOffset + page) →
    PageWalk.translate cpu st'.memory a = PageWalk.translate cpu st.memory a

theorem Keeps.refl (T : PageTables cpu st size) (asked : ℕ → Prop) : Keeps cpu size asked st st :=
  ⟨T, ⟨rfl, rfl, rfl, rfl⟩, fun _ _ h => h, fun _ _ _ _ => rfl⟩

theorem Keeps.mono {asked asked' : ℕ → Prop} (K : Keeps cpu size asked st st')
    (h : ∀ page, asked page → asked' page) : Keeps cpu size asked' st st' :=
  ⟨K.tables, K.same, K.direct, fun a ha hcanonical hne =>
    K.others a ha hcanonical fun page hpage => hne page (h page hpage)⟩

theorem Keeps.trans {st'' : PlatformState} {asked : ℕ → Prop} (K : Keeps cpu size asked st st')
    (K' : Keeps cpu size asked st' st'') : Keeps cpu size asked st st'' := by
  have hsame := K.same.directMapOffset
  refine ⟨K'.tables, K.same.trans K'.same, fun page h hdirect => ?_, fun a ha hcanonical hne => ?_⟩
  · exact K'.direct page (by rwa [hsame]) (K.direct page h hdirect)
  · rw [K'.others a ha hcanonical fun page hpage => by rw [hsame]; exact hne page hpage,
      K.others a ha hcanonical hne]

theorem mapMmioPage_keepsDirect (T : PageTables cpu st size) (U : UpperHalf cpu st.directMapOffset)
    (h : PageInReach st.directMapOffset page) : Keeps cpu size (· = page) st
      (mapMmioPage cpu st (add64 st.directMapOffset page) page).2 := by
  obtain ⟨-, hdirect, hothers⟩ := mapMmioPage_direct T U h
  exact ⟨mapMmioPage_tables T _ _, mapMmioPage_same cpu st _ _, hdirect, fun a ha hcanonical hne =>
    hothers a ha hcanonical (hne page rfl)⟩

/-- The pages of a call, up to the first that cannot be mapped. -/
theorem mapAll_keepsDirect (T : PageTables cpu st size) (U : UpperHalf cpu st.directMapOffset)
    {pages : List ℕ} (hpages : ∀ page ∈ pages, PageInReach st.directMapOffset page)
    {calls calls' : List MmioCall} {mapped : Bool}
    (h : mapAll cpu pages st calls = (mapped, st', calls')) :
    Keeps cpu size (· ∈ pages) st st' ∧ (mapped = true → ∀ page ∈ pages, Direct cpu st' page) := by
  induction pages generalizing st calls with
  | nil =>
    cases h
    exact ⟨.refl T _, fun _ _ hpage => absurd hpage List.not_mem_nil⟩
  | cons page pages ih =>
    have hpage := hpages page List.mem_cons_self
    have K : Keeps cpu size (· ∈ page :: pages) st _ :=
      (mapMmioPage_keepsDirect T U hpage).mono fun _ h => List.mem_cons.mpr (Or.inl h)
    have hsame := K.same.directMapOffset
    have hfirst := (mapMmioPage_direct T U hpage).1
    rw [mapAll] at h
    dsimp only at h
    split_ifs at h with hfailed
    · cases h
      exact ⟨K, fun hmapped => absurd hmapped Bool.false_ne_true⟩
    · rw [Bool.not_eq_true', Bool.not_eq_false] at hfailed
      obtain ⟨K', hmapped⟩ := ih K.tables (by rwa [hsame])
        (fun page' hpage' => by rw [hsame]; exact hpages page' (List.mem_cons_of_mem _ hpage')) h
      refine ⟨K.trans (K'.mono fun page' => List.mem_cons_of_mem _), fun htrue page' hpage' => ?_⟩
      rcases List.mem_cons.mp hpage' with rfl | hpage'
      · exact K'.direct _ (by rwa [hsame]) (hfirst hfailed)
      · exact hmapped htrue page' hpage'

/-- The pointer to a device, and what stands behind it. -/
def Mapped (cpu : Processor) (st : PlatformState) (e : Device × ℕ) : Prop :=
  e.2 = st.directMapOffset + e.1.physicalAddress ∧
    ∀ page, Touches e.1.physicalAddress e.1.length page → Direct cpu st page

/-- Every call returns. -/
theorem deviceStep_exists (cpu : Processor) (st : PlatformState) (device : Device)
    (hphysical : device.physicalAddress < 2 ^ 64) :
    ∃ pointer st', DeviceStep cpu st (device, pointer) st' := by
  by_cases hrefused : Refused st device.physicalAddress device.length
  · exact ⟨0, st, [], by rw [platformMapMmio, if_pos hrefused]⟩
  · exact ⟨_, _, _, platformMapMmio_eq hphysical hrefused⟩

/-- What a call can do: nothing, or the pages of the device one after the other. -/
theorem deviceStep_cases {e : Device × ℕ} (hreach : InReach st.directMapOffset e.1)
    (h : DeviceStep cpu st e st') :
    Refused st e.1.physicalAddress e.1.length ∧ e.2 = 0 ∧ st' = st ∨
      e.1.length ≠ 0 ∧ ∃ mapped calls,
        mapAll cpu (mmioPages e.1.physicalAddress e.1.length) st [] = (mapped, st', calls) ∧
          e.2 = if mapped then add64 st'.directMapOffset e.1.physicalAddress else 0 := by
  obtain ⟨calls, h⟩ := h
  have hphysical := hreach.physical
  by_cases hrefused : Refused st e.1.physicalAddress e.1.length
  · rw [platformMapMmio, if_pos hrefused, Option.some.injEq, Prod.mk.injEq, Prod.mk.injEq] at h
    exact Or.inl ⟨hrefused, h.1.symm, h.2.1.symm⟩
  have hlength : e.1.length ≠ 0 := fun hzero => hrefused (Or.inr (Or.inr (Or.inl hzero)))
  rw [platformMapMmio_eq (by omega) hrefused] at h
  cases hall : mapAll cpu (mmioPages e.1.physicalAddress e.1.length) st [] with
  | mk mapped rest =>
    rw [hall, Option.some.injEq, Prod.mk.injEq, Prod.mk.injEq] at h
    obtain ⟨hpointer, rfl, rfl⟩ := h
    exact Or.inr ⟨hlength, mapped, _, rfl, hpointer.symm⟩

theorem InReach.pointer_eq (h : InReach st.directMapOffset device) (hlength : device.length ≠ 0) :
    add64 st.directMapOffset device.physicalAddress =
      st.directMapOffset + device.physicalAddress := by
  have hroom := h.room
  exact add64_eq (by omega)

theorem deviceStep_keeps (T : PageTables cpu st size) (U : UpperHalf cpu st.directMapOffset)
    {e : Device × ℕ} (hreach : InReach st.directMapOffset e.1) (h : DeviceStep cpu st e st') :
    Keeps cpu size (Touches e.1.physicalAddress e.1.length) st st' ∧
      (e.2 ≠ 0 → Mapped cpu st' e) := by
  obtain ⟨-, hzero, rfl⟩ | ⟨hlength, mapped, calls, hall, hpointer⟩ := deviceStep_cases hreach h
  · exact ⟨.refl T _, fun h => absurd hzero h⟩
  have hpages := hreach.pages hlength
  obtain ⟨K, hmapped⟩ := mapAll_keepsDirect T U
    (fun page hpage => hreach.pageInReach ((hpages page).mp hpage)) hall
  refine ⟨K.mono fun page => (hpages page).mp, fun hne => ?_⟩
  cases mapped with
  | false => exact absurd hpointer hne
  | true =>
    refine ⟨?_, fun page hpage => hmapped rfl page ((hpages page).mpr hpage)⟩
    rw [hpointer, if_pos rfl, K.same.directMapOffset]
    exact hreach.pointer_eq hlength

/-- One of the devices touches the page. -/
def Asked (es : List (Device × ℕ)) (page : ℕ) : Prop :=
  ∃ e ∈ es, Touches e.1.physicalAddress e.1.length page

theorem run_keeps {es : List (Device × ℕ)} (hrun : Run (DeviceStep cpu) st es st')
    (T : PageTables cpu st size) (U : UpperHalf cpu st.directMapOffset)
    (hreach : ∀ e ∈ es, InReach st.directMapOffset e.1) :
    Keeps cpu size (Asked es) st st' ∧ ∀ e ∈ es, e.2 ≠ 0 → Mapped cpu st' e := by
  induction hrun with
  | nil => exact ⟨.refl T _, fun _ he => absurd he List.not_mem_nil⟩
  | @cons st st₁ st' e es head _ ih =>
    have he := hreach e List.mem_cons_self
    obtain ⟨K, hmapped⟩ := deviceStep_keeps T U he head
    have hsame := K.same.directMapOffset
    obtain ⟨K', hlater⟩ := ih K.tables (by rwa [hsame]) fun e' he' => by
      rw [hsame]
      exact hreach e' (List.mem_cons_of_mem _ he')
    refine ⟨(K.mono fun page hpage => ⟨e, List.mem_cons_self, hpage⟩).trans
      (K'.mono fun page ⟨e', he', hpage⟩ => ⟨e', List.mem_cons_of_mem _ he', hpage⟩),
      fun e' he' hpointer => ?_⟩
    rcases List.mem_cons.mp he' with rfl | he'
    · obtain ⟨heq, hdirect⟩ := hmapped hpointer
      refine ⟨by rw [heq, K'.same.directMapOffset], fun page hpage => ?_⟩
      exact K'.direct page (by rw [hsame]; exact he.pageInReach hpage) (hdirect page hpage)
    · exact hlater e' he' hpointer

/-- Behind the pointer lies the device, byte by byte. -/
theorem Mapped.translate {e : Device × ℕ} (h : Mapped cpu st e)
    (haligned : st.directMapOffset % 4096 = 0) {k : ℕ} (hk : k < e.1.length) :
    PageWalk.translate cpu st.memory (e.2 + k) = some (e.1.physicalAddress + k) := by
  obtain ⟨heq, hdirect⟩ := h
  have hpage : Touches e.1.physicalAddress e.1.length ((e.1.physicalAddress + k) / 4096 * 4096) :=
    ⟨by omega, e.1.physicalAddress + k, by omega, by omega, by omega, by omega⟩
  have hsplit : e.2 + k = st.directMapOffset + (e.1.physicalAddress + k) / 4096 * 4096 +
      (e.1.physicalAddress + k) % 4096 := by
    rw [heq]
    omega
  rw [hsplit, translate_add (by omega) (Nat.mod_lt _ (by decide)),
    show PageWalk.translate cpu st.memory _ = some _ from hdirect _ hpage, Option.map_some]
  congr 1
  omega

theorem canonical_page (h : Canonical cpu a) :
    Canonical cpu (a / 4096 * 4096) := by
  unfold Canonical at h ⊢
  rcases topLevel_eq cpu with htop | htop <;>
    · rw [htop] at h ⊢
      norm_num [span] at h ⊢
      omega

/-- Every pointer that a call for a device has returned leads to the device, byte by byte, after any
further calls; and what is not of a device asked for is mapped as it was. -/
theorem run_devices_mapped {es : List (Device × ℕ)} (hrun : Run (DeviceStep cpu) st es st')
    (T : PageTables cpu st size) (U : UpperHalf cpu st.directMapOffset)
    (hreach : ∀ e ∈ es, InReach st.directMapOffset e.1) :
    (∀ e ∈ es, e.2 ≠ 0 → ∀ k < e.1.length,
        PageWalk.translate cpu st'.memory (e.2 + k) = some (e.1.physicalAddress + k)) ∧
      ∀ a, Canonical cpu a →
        (∀ page, Asked es page → a / 4096 * 4096 ≠ st.directMapOffset + page) →
        PageWalk.translate cpu st'.memory a = PageWalk.translate cpu st.memory a := by
  obtain ⟨K, hmapped⟩ := run_keeps hrun T U hreach
  have hsame := K.same.directMapOffset
  refine ⟨fun e he hpointer k hk => ?_, fun a hcanonical hne => ?_⟩
  · exact (hmapped e he hpointer).translate (hsame ▸ U.aligned) hk
  · have hothers := K.others _ (Nat.mul_mod_left _ _) (canonical_page hcanonical) hne
    rw [← Nat.div_add_mod' a 4096, translate_add (Nat.mul_mod_left _ _) (Nat.mod_lt _ (by decide)),
      translate_add (Nat.mul_mod_left _ _) (Nat.mod_lt _ (by decide)), hothers]

theorem inReach_fresh {physicalAddress length : ℕ} (h : physicalAddress + length ≤ 2 ^ 46) :
    InReach freshPlatform.directMapOffset ⟨physicalAddress, length⟩ := by
  refine ⟨h.trans (by decide), ?_⟩
  change 0xffff800000000000 + physicalAddress + length ≤ 2 ^ 64
  omega

/-- A device behind a huge page, and the pointer to it after a call for another device. -/
theorem run_devices_mapped_huge : ∃ pointer st',
    Run (DeviceStep freshProcessor) (largePlatform 0xc0000083)
      [(⟨0xc0000000, 0x1000⟩, 0xffff8000c0000000), (⟨0xfee00000, 0x1000⟩, pointer)] st' ∧
    PageWalk.translate freshProcessor st'.memory (0xffff8000c0000000 + 5) =
      some (0xc0000000 + 5) := by
  have hpointer : (platformMapMmio freshProcessor (largePlatform 0xc0000083) 0xc0000000
      0x1000).map (·.1) = some 0xffff8000c0000000 := by decide +kernel
  obtain ⟨⟨_, st₁, calls⟩, hfirst, rfl⟩ := Option.map_eq_some_iff.mp hpointer
  obtain ⟨pointer, st', hsecond⟩ :=
    deviceStep_exists freshProcessor st₁ ⟨0xfee00000, 0x1000⟩ (by decide)
  have hrun : Run (DeviceStep freshProcessor) (largePlatform 0xc0000083)
      [(⟨0xc0000000, 0x1000⟩, 0xffff8000c0000000), (⟨0xfee00000, 0x1000⟩, pointer)] st' :=
    .cons ⟨calls, hfirst⟩ (.cons hsecond (.nil _))
  have hmapped := run_devices_mapped hrun (largePlatform_tables (by decide) (by decide))
    ⟨by decide, by decide⟩ fun e he => by
      rcases List.mem_pair.mp he with rfl | rfl <;> exact inReach_fresh (by decide)
  exact ⟨pointer, st', hrun, hmapped.1 _ List.mem_cons_self (by decide) 5 (by decide)⟩

end Devices

end JsOs.DeviceRuns

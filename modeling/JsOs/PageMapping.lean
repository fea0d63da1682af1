import JsOs.PageWalk

/-!
# Mapping a page keeps all other translations

`map_mmio_page` changes the tree of page tables along one path, at most.
-/

namespace JsOs.PageMapping

open CountedLoops ByteMemory MachineWords PageTableModel TableTrees PageWalk

/-- The page of the table with number `k` of `mmio_page_tables`. -/
def poolTable (st : PlatformState) (k : ℕ) : ℕ := tablePhysicalAddress st st.mmioPageTables / 4096 + k

/-- The direct map covers physical memory, and the kernel image lies in it as configured. -/
structure AddressSpace (cpu : Processor) (st : PlatformState) (size : ℕ) : Prop where
  size_le : size ≤ 2 ^ 52
  direct_map : ∀ p, p < size → cpu.resolve (add64 st.directMapOffset p) = p
  kernel_image : ∀ k, k < 64 * 4096 → cpu.resolve (add64 st.mmioPageTables k) =
    tablePhysicalAddress st (add64 st.mmioPageTables k)
  pool_aligned : tablePhysicalAddress st st.mmioPageTables % 4096 = 0
  pool_fits : tablePhysicalAddress st st.mmioPageTables + 64 * 4096 ≤ size

/-- The pointer stands for the page. -/
def Points (cpu : Processor) (pointer page : ℕ) : Prop :=
  ∀ k, k < 4096 → cpu.resolve (add64 pointer k) = 4096 * page + k

section Pointers

variable {cpu : Processor} {st : PlatformState} {size table t k : ℕ}

theorem AddressSpace.points_direct (A : AddressSpace cpu st size) (h : 4096 * t + 4096 ≤ size) :
    Points cpu (add64 st.directMapOffset (4096 * t)) t := by
  intro k hk
  rw [add64_assoc]
  exact A.direct_map _ (by omega)

theorem AddressSpace.physical_pool (A : AddressSpace cpu st size) (hk : k < 64 * 4096) :
    tablePhysicalAddress st (add64 st.mmioPageTables k) =
      tablePhysicalAddress st st.mmioPageTables + k := by
  have hfits := A.pool_fits
  have hsize := A.size_le
  unfold tablePhysicalAddress add64 sub64 at *
  omega

theorem AddressSpace.physical_poolTable (A : AddressSpace cpu st size) (hk : k < 64) :
    tablePhysicalAddress st (add64 st.mmioPageTables (pageSize * k)) = 4096 * poolTable st k := by
  have halign := A.pool_aligned
  rw [A.physical_pool (show pageSize * k < 64 * 4096 by unfold pageSize; omega)]
  unfold poolTable pageSize
  omega

theorem AddressSpace.points_pool (A : AddressSpace cpu st size) (hk : k < 64) :
    Points cpu (add64 st.mmioPageTables (pageSize * k)) (poolTable st k) := by
  intro i hi
  have halign := A.pool_aligned
  rw [add64_assoc, A.kernel_image _ (by unfold pageSize; omega),
    A.physical_pool (by unfold pageSize; omega)]
  unfold poolTable pageSize
  omega

end Pointers

section Entries

variable {cpu : Processor} {st : PlatformState} {table t x n va : ℕ} {i j : Fin 512}

theorem index_eq (va n : ℕ) : (va >>> (12 + n * 9)) &&& 0x1ff = index va n := by
  rw [Nat.shiftRight_eq_div_pow, show (0x1ff : ℕ) = 2 ^ 9 - 1 from rfl,
    Nat.and_two_pow_sub_one_eq_mod, Nat.mul_comm]
  rfl

/-- The entry of a table as it stands in memory. -/
def entryAt (m : Memory) (t : ℕ) (i : Fin 512) : ℕ := load m (4096 * t + 8 * i) 8

theorem readEntry_eq (P : Points cpu table t) (i : Fin 512) :
    readEntry cpu st table i = entryAt st.memory t i := by
  unfold readEntry
  rw [P (8 * i) (by omega)]
  rfl

theorem entryAt_writeEntry_same (P : Points cpu table t) (entry : ℕ) :
    entryAt (writeEntry cpu st table i entry).memory t i = entry % 2 ^ 64 := by
  unfold entryAt writeEntry
  rw [P (8 * i) (by omega)]
  exact load_store_same

theorem entryAt_writeEntry_other (P : Points cpu table t) (entry : ℕ) (h : x ≠ t ∨ j ≠ i) :
    entryAt (writeEntry cpu st table i entry).memory x j = entryAt st.memory x j := by
  have hne : x ≠ t ∨ (j : ℕ) ≠ i := h.imp_right fun h heq => h (Fin.ext heq)
  unfold entryAt writeEntry
  rw [P (8 * i) (by omega)]
  exact load_store_of_disjoint (by omega)

theorem zeroPage_memory (P : Points cpu table t) (a : ℕ) : (zeroPage cpu st table).memory a =
    if 4096 * t ≤ a ∧ a < 4096 * t + pageSize then 0 else st.memory a := by
  have hpage : pageSize ≤ 4096 := le_refl _
  unfold zeroPage
  -- the bound of the loop stays a variable
  generalize pageSize = count at hpage ⊢
  refine forRange_invariant (fun k (m : Memory) => m a =
    if 4096 * t ≤ a ∧ a < 4096 * t + k then 0 else st.memory a) (Nat.zero_le count) ?_ ?_
  · rw [if_neg (by omega)]
  · intro k m _ hk hm
    rw [P k (by omega)]
    by_cases ha : a = 4096 * t + k
    · rw [ha, storeByte_same, if_pos (by omega)]
    · rw [storeByte_of_ne ha, hm]
      congr 1
      exact propext ⟨fun h => by omega, fun h => by omega⟩

theorem entryAt_zeroPage_same (P : Points cpu table t) (i : Fin 512) :
    entryAt (zeroPage cpu st table).memory t i = 0 := by
  have hload : load (zeroPage cpu st table).memory (4096 * t + 8 * i) 8 = 0 % 256 ^ 8 :=
    load_of_bytes fun k hk => by
      rw [zeroPage_memory P, if_pos (by unfold pageSize; omega)]
      simp
  exact hload

theorem entryAt_zeroPage_other (P : Points cpu table t) (i : Fin 512) (h : x ≠ t) :
    entryAt (zeroPage cpu st table).memory x i = entryAt st.memory x i := by
  refine load_eq_of_unchanged fun a h₁ h₂ => ?_
  rw [zeroPage_memory P, if_neg (by unfold pageSize; omega)]

theorem tables_writeEntry_same (P : Points cpu table t) (entry : ℕ) :
    tables (writeEntry cpu st table i entry).memory n t i = decode n (entry % 2 ^ 64) :=
  congrArg (decode n) (entryAt_writeEntry_same P entry)

theorem tables_writeEntry_other (P : Points cpu table t) (entry : ℕ) (h : x ≠ t ∨ j ≠ i) :
    tables (writeEntry cpu st table i entry).memory n x j = tables st.memory n x j :=
  congrArg (decode n) (entryAt_writeEntry_other P entry h)

end Entries

section Bits

variable {entry va pa n : ℕ}

theorem page_dvd_span (n : ℕ) : 4096 ∣ span n := pow_dvd_pow 2 (show 12 ≤ 12 + 9 * n by omega)

theorem span_dvd (hn : n ≤ 4) {k : ℕ} (hk : 48 ≤ k) : span n ∣ 2 ^ k :=
  pow_dvd_pow 2 (by omega)

theorem present_iff (entry : ℕ) : entry &&& pagePresent ≠ 0 ↔ entry % 2 ≠ 0 := by
  have h := and_bit_eq_zero entry 0
  rw [pow_zero, Nat.div_one] at h
  exact not_congr h

theorem huge_iff (entry : ℕ) : entry &&& pageHuge ≠ 0 ↔ entry / 128 % 2 = 1 := by
  have h := and_bit_eq_zero entry 7
  unfold pageHuge
  norm_num at h ⊢
  omega

theorem addressMask_eq (entry : ℕ) : entry &&& pageAddressMask = 4096 * pageNumber entry := by
  have h := and_mask (show 12 ≤ 52 by decide) entry
  unfold pageAddressMask pageNumber
  rw [show 0x000ffffffffff000 = 2 ^ 52 - 2 ^ 12 from rfl, h]
  norm_num
  omega

theorem pageMask_eq {a : ℕ} (ha : a < 2 ^ 64) : a &&& not64 (pageSize - 1) = a / 4096 * 4096 :=
  and_not64_mask (show 12 ≤ 64 by decide) ha

theorem hugeMapped_eq (hentry : entry < 2 ^ 64) (hn : n ≤ 4) :
    hugeMapped entry (12 + n * 9) va = entry / span n * span n + va % span n := by
  have hspan : 1 <<< (12 + n * 9) = span n := by
    rw [Nat.shiftLeft_eq, Nat.one_mul, Nat.mul_comm]
    rfl
  unfold hugeMapped
  rw [hspan]
  dsimp only [span]
  rw [and_not64_mask (by omega) hentry, Nat.and_two_pow_sub_one_eq_mod,
    or_eq_add (Nat.mod_lt _ (Nat.two_pow_pos _)) (Dvd.intro_left _ rfl)]

/-- The page that the comparison for a huge page looks at. -/
theorem hugePage_eq (hentry : entry < 2 ^ 64) (hn : n ≤ 4) (hva : va % 4096 = 0) :
    hugeMapped entry (12 + n * 9) va &&& not64 (pageSize - 1) =
      entry / span n * span n + va % span n := by
  have hpages : 4096 ∣ entry / span n * span n + va % span n := by
    refine Nat.dvd_add ((page_dvd_span n).mul_left _) (Nat.dvd_of_mod_eq_zero ?_)
    rw [Nat.mod_mod_of_dvd va (page_dvd_span n), hva]
  have hbound : entry / span n * span n + va % span n < 2 ^ 64 := by
    obtain ⟨c, hc⟩ := span_dvd hn (show 48 ≤ 64 by decide)
    have hpos : 0 < span n := Nat.two_pow_pos _
    have hlt : entry / span n + 1 ≤ c := by
      rw [Nat.succ_le_iff, Nat.div_lt_iff_lt_mul hpos, Nat.mul_comm, ← hc]
      exact hentry
    calc entry / span n * span n + va % span n < (entry / span n + 1) * span n := by
          rw [Nat.succ_mul]
          exact Nat.add_lt_add_left (Nat.mod_lt va hpos) _
      _ ≤ 2 ^ 64 := by
          rw [hc, Nat.mul_comm]
          exact Nat.mul_le_mul_left _ hlt
  rw [hugeMapped_eq hentry hn, pageMask_eq hbound, Nat.div_mul_cancel hpages]

/-- The bits of an entry from 52 on are no part of the physical address. -/
theorem div_span_eq (hn : n ≤ 4) (entry : ℕ) :
    entry / span n * span n = entry / 2 ^ 52 * 2 ^ 52 + frame n entry := by
  obtain ⟨c, hc⟩ := span_dvd hn (show 48 ≤ 52 by decide)
  have hpos : 0 < span n := Nat.two_pow_pos _
  have hsplit : entry / span n = entry / 2 ^ 52 * c + entry % 2 ^ 52 / span n := by
    conv_lhs => rw [← Nat.div_add_mod entry (2 ^ 52)]
    rw [show 2 ^ 52 * (entry / 2 ^ 52) = span n * (entry / 2 ^ 52 * c) by rw [hc]; ring,
      Nat.mul_add_div hpos]
  unfold frame
  rw [hsplit, hc]
  ring

/-- What the comparison for a huge page says about the walk. -/
theorem huge_translates (hentry : entry < 2 ^ 64) (hn : n ≤ 4) (hva : va % 4096 = 0)
    (hpa : pa < 2 ^ 52)
    (h : (hugeMapped entry (12 + n * 9) va &&& not64 (pageSize - 1) == pa) = true) :
    frame n entry + va % span n = pa := by
  rw [beq_iff_eq, hugePage_eq hentry hn hva, div_span_eq hn] at h
  -- the masked entry has no bit from 52 on, as the physical page has none
  have hhigh : entry / 2 ^ 52 = 0 := by
    by_contra hne
    have hle := Nat.le_mul_of_pos_left (2 ^ 52) (Nat.pos_of_ne_zero hne)
    omega
  rw [← h, hhigh, Nat.zero_mul, Nat.zero_add]

/-- The comparison for a huge page that the walk finds, too. -/
theorem huge_accepts_iff (hentry : entry < 2 ^ 64) (hn : n ≤ 4) (hva : va % 4096 = 0)
    (h : frame n entry + va % span n = pa) :
    (hugeMapped entry (12 + n * 9) va &&& not64 (pageSize - 1) == pa) = true ↔ entry < 2 ^ 52 := by
  rw [beq_iff_eq, hugePage_eq hentry hn hva, div_span_eq hn, ← h]
  omega

/-- The entry that links a fresh table. -/
theorem linkEntry_eq {page : ℕ} (hpage : page < 2 ^ 40) :
    (4096 * page ||| pagePresent ||| pageWrite) % 2 ^ 64 = 4096 * page + 3 := by
  have hentry : 4096 * page ||| pagePresent ||| pageWrite = 4096 * page + 3 := by
    rw [Nat.or_assoc]
    exact or_eq_add (show 3 < 2 ^ 12 by decide) (Dvd.intro page rfl)
  rw [hentry, Nat.mod_eq_of_lt (by omega)]

theorem pageNumber_linkEntry {page : ℕ} (hpage : page < 2 ^ 40) :
    pageNumber (4096 * page + 3) = page := by
  unfold pageNumber
  omega

theorem linkEntry_decode {page : ℕ} (hpage : page < 2 ^ 40) :
    decode (n + 1) ((4096 * page ||| pagePresent ||| pageWrite) % 2 ^ 64) = .table page := by
  rw [linkEntry_eq hpage]
  unfold decode
  rw [if_neg (by omega), if_neg (by omega), pageNumber_linkEntry hpage]

/-- The entry that maps the device page. -/
theorem deviceEntry_decode (hpa : pa < 2 ^ 52) (hpa' : pa % 4096 = 0) :
    decode 0 ((pa ||| pagePresent ||| pageWrite ||| pageWriteThrough ||| pageCacheDisable) % 2 ^ 64) =
      .value pa := by
  have hentry : pa ||| pagePresent ||| pageWrite ||| pageWriteThrough ||| pageCacheDisable =
      pa + 27 := by
    rw [Nat.or_assoc, Nat.or_assoc, Nat.or_assoc]
    exact or_eq_add (show 27 < 2 ^ 12 by decide) (Nat.dvd_of_mod_eq_zero hpa')
  rw [hentry, Nat.mod_eq_of_lt (by omega)]
  unfold decode frame
  rw [if_neg (by omega), if_pos (Or.inl rfl), show span 0 = 4096 from rfl]
  congr 1
  omega

end Bits

section Mapping

variable {cpu : Processor} {st : PlatformState} {size va pa : ℕ}

/-- The tables of `mmio_page_tables` that are not in use. -/
def Unused (st : PlatformState) (x : ℕ) : Prop :=
  ∃ k, st.mmioPageTableCount ≤ k ∧ k < 64 ∧ x = poolTable st k

theorem AddressSpace.poolTable_fits (A : AddressSpace cpu st size) {k : ℕ} (hk : k < 64) :
    4096 * poolTable st k + 4096 ≤ size := by
  have hfits := A.pool_fits
  unfold poolTable
  omega

/-- The state after `allocate_page_table` and the entry that links the table. -/
def linkFresh (cpu : Processor) (st : PlatformState) (table index : ℕ) : PlatformState :=
  let next := add64 st.mmioPageTables (pageSize * st.mmioPageTableCount)
  let st := zeroPage cpu { st with mmioPageTableCount := st.mmioPageTableCount + 1 } next
  writeEntry cpu st table index (tablePhysicalAddress st next ||| pagePresent ||| pageWrite)

@[simp] theorem linkFresh_directMapOffset (table i : ℕ) :
    (linkFresh cpu st table i).directMapOffset = st.directMapOffset :=
  zeroPage_directMapOffset ..

@[simp] theorem linkFresh_mmioPageTables (table i : ℕ) :
    (linkFresh cpu st table i).mmioPageTables = st.mmioPageTables :=
  zeroPage_mmioPageTables ..

@[simp] theorem linkFresh_mmioPageTableCount (table i : ℕ) :
    (linkFresh cpu st table i).mmioPageTableCount = st.mmioPageTableCount + 1 :=
  zeroPage_mmioPageTableCount ..

@[simp] theorem tablePhysicalAddress_linkFresh (table i p : ℕ) :
    tablePhysicalAddress (linkFresh cpu st table i) p = tablePhysicalAddress st p := by
  unfold linkFresh
  dsimp only
  rw [tablePhysicalAddress_writeEntry, tablePhysicalAddress_zeroPage]
  rfl

@[simp] theorem poolTable_linkFresh (table i k : ℕ) :
    poolTable (linkFresh cpu st table i) k = poolTable st k := by
  unfold poolTable
  rw [tablePhysicalAddress_linkFresh, linkFresh_mmioPageTables]

theorem AddressSpace.linkFresh (A : AddressSpace cpu st size) (table i : ℕ) :
    AddressSpace cpu (linkFresh cpu st table i) size :=
  ⟨A.size_le, by simpa using A.direct_map, by simpa using A.kernel_image,
    by simpa using A.pool_aligned, by simpa using A.pool_fits⟩

/-- The three kinds of entries after a table is linked: the one that links it, those in it, and all
others. -/
theorem linkFresh_entries (A : AddressSpace cpu st size) {table t : ℕ} (P : Points cpu table t)
    (hk : st.mmioPageTableCount < 64) (hne : poolTable st st.mmioPageTableCount ≠ t) (i : Fin 512) :
    entryAt (linkFresh cpu st table i).memory t i =
        (4096 * poolTable st st.mmioPageTableCount ||| pagePresent ||| pageWrite) % 2 ^ 64 ∧
      (∀ j, entryAt (linkFresh cpu st table i).memory (poolTable st st.mmioPageTableCount) j = 0) ∧
      ∀ x j, x ≠ poolTable st st.mmioPageTableCount → x ≠ t ∨ j ≠ i →
        entryAt (linkFresh cpu st table i).memory x j = entryAt st.memory x j := by
  have hpoints := A.points_pool hk
  have hphysical := A.physical_poolTable hk
  unfold linkFresh
  refine ⟨?_, fun j => ?_, fun x j hx h => ?_⟩
  · rw [entryAt_writeEntry_same P, tablePhysicalAddress_zeroPage]
    exact hphysical ▸ rfl
  · rw [entryAt_writeEntry_other P _ (Or.inl hne), entryAt_zeroPage_same hpoints]
  · rw [entryAt_writeEntry_other P _ h, entryAt_zeroPage_other hpoints _ hx]

theorem AddressSpace.poolTable_lt (A : AddressSpace cpu st size) {k : ℕ} (hk : k < 64) :
    poolTable st k < 2 ^ 40 := by
  have hfits := A.poolTable_fits hk
  have hsize := A.size_le
  omega

theorem linkFresh_tables (A : AddressSpace cpu st size) {table t : ℕ} (P : Points cpu table t)
    (hk : st.mmioPageTableCount < 64) (hne : poolTable st st.mmioPageTableCount ≠ t) (i : Fin 512) :
    (∀ n, tables (linkFresh cpu st table i).memory (n + 1) t i =
        .table (poolTable st st.mmioPageTableCount)) ∧
      (∀ n j, tables (linkFresh cpu st table i).memory n (poolTable st st.mmioPageTableCount) j =
        .empty) ∧
      ∀ x n j, x ≠ poolTable st st.mmioPageTableCount → x ≠ t ∨ j ≠ i →
        tables (linkFresh cpu st table i).memory n x j = tables st.memory n x j := by
  obtain ⟨hlink, hblank, hsame⟩ := linkFresh_entries A P hk hne i
  refine ⟨fun n => ?_, fun n j => ?_, fun x n j hx h => congrArg (decode n) (hsame x j hx h)⟩
  · exact (congrArg (decode (n + 1)) hlink).trans (linkEntry_decode (A.poolTable_lt hk))
  · exact congrArg (decode n) (hblank j)

theorem Unused.of_linkFresh {table i x : ℕ} (h : Unused (linkFresh cpu st table i) x) :
    Unused st x ∧ x ≠ poolTable st st.mmioPageTableCount := by
  obtain ⟨k, hle, hlt, rfl⟩ := h
  rw [linkFresh_mmioPageTableCount] at hle
  rw [poolTable_linkFresh]
  refine ⟨⟨k, Nat.le_of_succ_le hle, hlt, rfl⟩, fun heq => ?_⟩
  unfold poolTable at heq
  omega

theorem tables_decode {table t n : ℕ} (P : Points cpu table t) (i : Fin 512) :
    tables st.memory n t i = decode n (readEntry cpu st table i) := by
  rw [readEntry_eq P]
  rfl

theorem readEntry_lt {table t : ℕ} (P : Points cpu table t) (i : Fin 512) :
    readEntry cpu st table i < 2 ^ 64 := by
  rw [readEntry_eq P]
  exact (load_lt st.memory _ 8).trans_eq (by norm_num)

section Levels

variable {n table : ℕ}

theorem mapLevels_full (h : readEntry cpu st table (index va (n + 1)) % 2 = 0)
    (hcount : ¬st.mmioPageTableCount < 64) : mapLevels cpu va pa (n + 1) st table = (false, st) := by
  have hindex := index_eq va (n + 1)
  rw [mapLevels, show n + 2 - 1 = n + 1 from rfl, hindex, if_neg fun hne => (present_iff _).mp hne h]
  unfold allocatePageTable
  rw [if_pos (show st.mmioPageTableCount ≥ mmioTableCount from not_lt.mp hcount)]

theorem mapLevels_absent (h : readEntry cpu st table (index va (n + 1)) % 2 = 0)
    (hcount : st.mmioPageTableCount < 64) : mapLevels cpu va pa (n + 1) st table =
      mapLevels cpu va pa n (linkFresh cpu st table (index va (n + 1)))
        (add64 st.mmioPageTables (pageSize * st.mmioPageTableCount)) := by
  have hindex := index_eq va (n + 1)
  rw [mapLevels, show n + 2 - 1 = n + 1 from rfl, hindex, if_neg fun hne => (present_iff _).mp hne h]
  unfold allocatePageTable
  rw [if_neg (show ¬st.mmioPageTableCount ≥ mmioTableCount from not_le.mpr hcount)]
  rfl

theorem mapLevels_huge (h : readEntry cpu st table (index va (n + 1)) % 2 ≠ 0)
    (hhuge : readEntry cpu st table (index va (n + 1)) / 128 % 2 = 1) :
    mapLevels cpu va pa (n + 1) st table =
      (hugeMapped (readEntry cpu st table (index va (n + 1))) (12 + (n + 1) * 9) va &&&
        not64 (pageSize - 1) == pa, st) := by
  have hindex := index_eq va (n + 1)
  rw [mapLevels, show n + 2 - 1 = n + 1 from rfl, hindex, if_pos ((present_iff _).mpr h),
    if_pos ((huge_iff _).mpr hhuge)]

theorem mapLevels_child (h : readEntry cpu st table (index va (n + 1)) % 2 ≠ 0)
    (hhuge : readEntry cpu st table (index va (n + 1)) / 128 % 2 ≠ 1) :
    mapLevels cpu va pa (n + 1) st table = mapLevels cpu va pa n st
      (add64 st.directMapOffset
        (4096 * pageNumber (readEntry cpu st table (index va (n + 1))))) := by
  have hindex := index_eq va (n + 1)
  rw [mapLevels, show n + 2 - 1 = n + 1 from rfl, hindex, if_pos ((present_iff _).mpr h),
    if_neg (mt (huge_iff _).mp hhuge), addressMask_eq]

/-- What the loop does above the last level, by the entry that it reads. -/
inductive LevelStep (cpu : Processor) (va pa n : ℕ) (st : PlatformState) (table entry : ℕ) : Prop where
  | full (hpresent : entry % 2 = 0)
      (heq : mapLevels cpu va pa (n + 1) st table = (false, st))
  | absent (hpresent : entry % 2 = 0) (hk : st.mmioPageTableCount < 64)
      (heq : mapLevels cpu va pa (n + 1) st table =
        mapLevels cpu va pa n (linkFresh cpu st table (index va (n + 1)))
          (add64 st.mmioPageTables (pageSize * st.mmioPageTableCount)))
  | huge (hpresent : entry % 2 ≠ 0) (hhuge : entry / 128 % 2 = 1)
      (heq : mapLevels cpu va pa (n + 1) st table =
        (hugeMapped entry (12 + (n + 1) * 9) va &&& not64 (pageSize - 1) == pa, st))
  | child (hpresent : entry % 2 ≠ 0) (hhuge : entry / 128 % 2 ≠ 1)
      (heq : mapLevels cpu va pa (n + 1) st table =
        mapLevels cpu va pa n st (add64 st.directMapOffset (4096 * pageNumber entry)))

theorem mapLevels_step (cpu : Processor) (va pa n : ℕ) (st : PlatformState) (table : ℕ) :
    LevelStep cpu va pa n st table (readEntry cpu st table (index va (n + 1))) := by
  by_cases hpresent : readEntry cpu st table (index va (n + 1)) % 2 = 0
  · by_cases hk : st.mmioPageTableCount < 64
    · exact .absent hpresent hk (mapLevels_absent hpresent hk)
    · exact .full hpresent (mapLevels_full hpresent hk)
  · by_cases hhuge : readEntry cpu st table (index va (n + 1)) / 128 % 2 = 1
    · exact .huge hpresent hhuge (mapLevels_huge hpresent hhuge)
    · exact .child hpresent hhuge (mapLevels_child hpresent hhuge)

end Levels

/-- What the loop does to the tables below the one it stands at. -/
theorem mapLevels_grafts (A : AddressSpace cpu st size) (hva : va % 4096 = 0) (hpa : pa < 2 ^ 52)
    (hpa' : pa % 4096 = 0) {n table t : ℕ} (hn : n ≤ 4) (P : Points cpu table t)
    (hone : OnePath (tables st.memory) n t)
    (hfits : ∀ x, Reaches (tables st.memory) n t x → 4096 * x + 4096 ≤ size)
    (hunused : ∀ x, Unused st x → ¬Reaches (tables st.memory) n t x) :
    ∃ result, Grafts (Unused st) (index va) n t result (tables st.memory)
        (tables (mapLevels cpu va pa n st table).2.memory) ∧
      ((mapLevels cpu va pa n st table).1 = true →
        ∃ found, result = some found ∧ found.2 + va % span found.1 = pa) ∧
      ((mapLevels cpu va pa n st table).1 = false →
        result = lookup (tables st.memory) (index va) n t) := by
  induction n generalizing st table t with
  | zero =>
    refine ⟨some (0, pa), ?_, fun _ => ⟨(0, pa), rfl, ?_⟩, fun h => by cases h⟩
    · have hindex := index_eq va 0
      unfold mapLevels
      dsimp only
      rw [show (va >>> 12) &&& 0x1ff = index va 0 from hindex]
      refine .write ?_ fun x k i h => tables_writeEntry_other P _ h
      rw [tables_writeEntry_same P, deviceEntry_decode hpa hpa']
    · change pa + va % span 0 = pa
      rw [show span 0 = 4096 from rfl, hva, Nat.add_zero]
  | succ n ih =>
    have hbound : readEntry cpu st table (index va (n + 1)) < 2 ^ 64 := readEntry_lt P _
    have hentry : tables st.memory (n + 1) t (index va (n + 1)) =
        decode (n + 1) (readEntry cpu st table (index va (n + 1))) := tables_decode P _
    have hfresh : ∀ x, Unused st x → ¬Reaches (tables st.memory) (n + 1) t x := hunused
    cases mapLevels_step cpu va pa n st table with
    | full _ heq =>
      rw [heq]
      exact ⟨_, .refl _, fun h => absurd h Bool.false_ne_true, fun _ => rfl⟩
    | absent hpresent hk heq =>
      have hempty : tables st.memory (n + 1) t (index va (n + 1)) = .empty := by
        rw [hentry, decode, if_pos hpresent]
      have hu : Unused st (poolTable st st.mmioPageTableCount) :=
        ⟨st.mmioPageTableCount, le_refl _, hk, rfl⟩
      have hne : poolTable st st.mmioPageTableCount ≠ t := fun h => hunused _ hu (h ▸ .self)
      obtain ⟨hlink, hblank, hsame⟩ := linkFresh_tables A P hk hne (index va (n + 1))
      obtain ⟨result, G, htrue, hfalse⟩ := ih (A.linkFresh _ _) (by omega) (A.points_pool hk)
        (onePath_blank hblank)
        (fun x hx => reaches_blank hblank hx ▸ A.poolTable_fits hk)
        (fun x hx hreach => hx.of_linkFresh.2 (reaches_blank hblank hreach))
      rw [heq]
      refine ⟨result, .link hone hfresh hu (fun x hx => hx.of_linkFresh.1) hempty (hlink n) hblank
        hsame G, htrue, fun h => ?_⟩
      rw [hfalse h, lookup_blank fun i => hblank n i, lookup_empty hempty]
    | huge hpresent hhuge heq =>
      have hvalue : tables st.memory (n + 1) t (index va (n + 1)) =
          .value (frame (n + 1) (readEntry cpu st table (index va (n + 1)))) := by
        rw [hentry, decode, if_neg hpresent, if_pos (Or.inr hhuge)]
      rw [heq]
      exact ⟨_, .refl _, fun h => ⟨_, lookup_value hvalue, huge_translates hbound hn hva hpa h⟩,
        fun _ => rfl⟩
    | child hpresent hhuge heq =>
      have hchild : tables st.memory (n + 1) t (index va (n + 1)) =
          .table (pageNumber (readEntry cpu st table (index va (n + 1)))) := by
        rw [hentry, decode, if_neg hpresent, if_neg (by omega)]
      obtain ⟨result, G, htrue, hfalse⟩ := ih A (by omega)
        (A.points_direct (hfits _ (.below hchild .self))) (hone.child hchild)
        (fun x hx => hfits x (.below hchild hx)) (fun x hu hx => hunused x hu (.below hchild hx))
      rw [heq]
      refine ⟨result, G.below hone hfresh hchild, htrue, fun h => ?_⟩
      rw [hfalse h, lookup_table hchild]

/-- Below an empty table the page is mapped as long as the tables of the pool last. -/
theorem mapLevels_of_blank (A : AddressSpace cpu st size) {n table t : ℕ} (P : Points cpu table t)
    (hblank : ∀ m i, tables st.memory m t i = .empty) (hunused : ¬Unused st t)
    (hcount : st.mmioPageTableCount + n ≤ 64) : (mapLevels cpu va pa n st table).1 = true := by
  induction n generalizing st table t with
  | zero => rfl
  | succ n ih =>
    have hdecode : decode (n + 1) (readEntry cpu st table (index va (n + 1))) = .empty :=
      (tables_decode P _).symm.trans (hblank _ _)
    have hpresent : readEntry cpu st table (index va (n + 1)) % 2 = 0 := by
      unfold decode at hdecode
      split_ifs at hdecode with h
      exact h
    have hk : st.mmioPageTableCount < 64 := by omega
    have hne : poolTable st st.mmioPageTableCount ≠ t := fun h =>
      hunused ⟨st.mmioPageTableCount, le_refl _, hk, h.symm⟩
    obtain ⟨-, hnext, -⟩ := linkFresh_tables A P hk hne (index va (n + 1))
    rw [mapLevels_absent hpresent hk]
    refine ih (A.linkFresh _ _) (A.points_pool hk) hnext (fun h => h.of_linkFresh.2 rfl) ?_
    rw [linkFresh_mmioPageTableCount]
    omega

/-- A tree of page tables, each reached in one way, beside the tables that are not in use yet. -/
structure PageTables (cpu : Processor) (st : PlatformState) (size : ℕ) : Prop where
  space : AddressSpace cpu st size
  one_path : OnePath (tables st.memory) (topLevel cpu) (rootTable cpu)
  fits : ∀ t, Reaches (tables st.memory) (topLevel cpu) (rootTable cpu) t → 4096 * t + 4096 ≤ size
  unused : ∀ t, Unused st t → ¬Reaches (tables st.memory) (topLevel cpu) (rootTable cpu) t

theorem pagingLevels_eq (cpu : Processor) : pagingLevels cpu - 1 = topLevel cpu := by
  have hbit := and_bit_eq_zero cpu.cr4 12
  unfold pagingLevels topLevel
  rw [Nat.shiftLeft_eq, Nat.one_mul]
  by_cases h : cpu.cr4 / 2 ^ 12 % 2 = 1
  · rw [if_pos h, if_pos fun h0 => by omega]
  · rw [if_neg h, if_neg fun h0 => h0 (hbit.mpr (by omega))]

theorem topLevel_le (cpu : Processor) : topLevel cpu ≤ 4 := by
  rcases topLevel_eq cpu with h | h <;> omega

/-- What the call does to the tree of tables. -/
theorem mapMmioPage_grafts (T : PageTables cpu st size) (hva : va % 4096 = 0) (hpa : pa < 2 ^ 52)
    (hpa' : pa % 4096 = 0) :
    ∃ result, Grafts (Unused st) (index va) (topLevel cpu) (rootTable cpu) result
        (tables st.memory) (tables (mapMmioPage cpu st va pa).2.memory) ∧
      ((mapMmioPage cpu st va pa).1 = true →
        ∃ found, result = some found ∧ found.2 + va % span found.1 = pa) ∧
      ((mapMmioPage cpu st va pa).1 = false →
        result = lookup (tables st.memory) (index va) (topLevel cpu) (rootTable cpu)) := by
  have hroot : cpu.cr3 &&& pageAddressMask = 4096 * rootTable cpu := addressMask_eq _
  unfold mapMmioPage
  rw [pagingLevels_eq, hroot]
  exact mapLevels_grafts T.space hva hpa hpa' (topLevel_le cpu)
    (T.space.points_direct (T.fits _ .self)) T.one_path T.fits T.unused

/-- `map_mmio_page` maps the page where it returns true, leaves it where it returns false, and
leaves every other page in both cases. -/
theorem mapMmioPage_translates (T : PageTables cpu st size) (hva : va % 4096 = 0)
    (hcanonical : Canonical cpu va) (hpa : pa < 2 ^ 52) (hpa' : pa % 4096 = 0) :
    ((mapMmioPage cpu st va pa).1 = true →
        PageWalk.translate cpu (mapMmioPage cpu st va pa).2.memory va = some pa) ∧
      ((mapMmioPage cpu st va pa).1 = false →
        PageWalk.translate cpu (mapMmioPage cpu st va pa).2.memory va =
          PageWalk.translate cpu st.memory va) ∧
      ∀ a, a % 4096 = 0 → Canonical cpu a → a ≠ va →
        PageWalk.translate cpu (mapMmioPage cpu st va pa).2.memory a =
          PageWalk.translate cpu st.memory a := by
  obtain ⟨result, G, htrue, hfalse⟩ := mapMmioPage_grafts T hva hpa hpa'
  unfold PageWalk.translate
  refine ⟨fun h => ?_, fun h => ?_, fun a ha hacanonical hne => ?_⟩
  · obtain ⟨found, hfound, hsum⟩ := htrue h
    rw [G.result_eq, hfound, Option.map_some, hsum]
  · rw [G.result_eq, hfalse h]
  · rw [G.others _ (hacanonical.index_ne hcanonical ha hva hne)]

/-- An empty root table at the second page, and the kernel image from the third megabyte on. -/
def freshPlatform : PlatformState :=
  ⟨fun _ => 0, 0xffff800000000000, 0x200000, 0xffffffff80000000, 0xffffffff80000000, 0⟩

def freshProcessor : Processor :=
  ⟨0x1000, 0, fun v =>
    if 0xffffffff80000000 ≤ v then v - 0xffffffff80000000 + 0x200000 else v - 0xffff800000000000⟩

theorem freshPlatform_blank (t n : ℕ) (i : Fin 512) :
    tables freshPlatform.memory n t i = .empty := by
  unfold tables
  rw [load_of_bytes (v := 0) fun k _ => by simp [freshPlatform], Nat.zero_mod]
  rfl

theorem freshPlatform_tables : PageTables freshProcessor freshPlatform 0x300000 where
  space :=
    { size_le := by decide
      direct_map := fun p hp => by
        unfold freshProcessor freshPlatform add64
        dsimp only
        rw [if_neg (by omega)]
        omega
      kernel_image := fun k hk => by
        unfold freshProcessor freshPlatform tablePhysicalAddress add64 sub64
        dsimp only
        rw [if_pos (by omega)]
        omega
      pool_aligned := by decide
      pool_fits := by decide }
  one_path := onePath_blank (freshPlatform_blank _)
  fits := fun t ht => by
    rw [reaches_blank (freshPlatform_blank _) ht]
    decide
  unused := fun t ht hreach => by
    obtain ⟨k, -, -, rfl⟩ := ht
    have hroot := reaches_blank (freshPlatform_blank _) hreach
    have hpool : poolTable freshPlatform k = 512 + k := rfl
    rw [hpool, show rootTable freshProcessor = 1 from rfl] at hroot
    omega

/-- The local interrupt controller, in the direct map. -/
theorem mapMmioPage_translates_fresh :
    PageWalk.translate freshProcessor (mapMmioPage freshProcessor freshPlatform 0xffff8000fee00000
      0xfee00000).2.memory 0xffff8000fee00000 = some 0xfee00000 :=
  (mapMmioPage_translates freshPlatform_tables (by decide) (Or.inr (by decide)) (by decide)
    (by decide)).1 (mapLevels_of_blank freshPlatform_tables.space
      (freshPlatform_tables.space.points_direct (freshPlatform_tables.fits _ .self))
      (freshPlatform_blank _) (freshPlatform_tables.unused _ · .self) (by decide))

end Mapping

end JsOs.PageMapping

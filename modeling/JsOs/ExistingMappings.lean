import JsOs.MmioRanges
import JsOs.TableGrowth

/-!
# Mappings that exist already

`map_mmio_page` adds tables where there are none and changes entries of the last level; whatever the
walk found before it finds afterwards. So a page that is mapped once is mapped again. A huge page is
compared with its whole entry, though, the bits above the physical address included.
-/

namespace JsOs.ExistingMappings

open ByteMemory MachineWords PageTableModel TableTrees TableGrowth PageWalk PageMapping MmioModel
open MmioRanges

section Entries

/-- The entries themselves as the values of a tree. -/
def rawEntry (n entry : ℕ) : Entry ℕ ℕ :=
  if entry % 2 = 0 then .empty
  else if n = 0 ∨ entry / 128 % 2 = 1 then .value entry
  else .table (pageNumber entry)

def entries (m : Memory) : Contents ℕ (Fin 512) ℕ := fun n t i => rawEntry n (entryAt m t i)

/-- The level and the entry at which the walk ends, if the address is mapped. -/
def mappingEntry (cpu : Processor) (m : Memory) (address : ℕ) : Option (ℕ × ℕ) :=
  lookup (entries m) (index address) (topLevel cpu) (rootTable cpu)

variable {cpu : Processor} {m : Memory}

theorem decode_eq (n entry : ℕ) : decode n entry = mapEntry (frame n) (rawEntry n entry) := by
  unfold decode rawEntry
  split_ifs <;> rfl

theorem tables_eq (m : Memory) : tables m = mapContents frame (entries m) := by
  funext n t i
  exact decode_eq n (entryAt m t i)

theorem translate_eq (cpu : Processor) (m : Memory) (address : ℕ) :
    PageWalk.translate cpu m address = (mappingEntry cpu m address).map fun found =>
      frame found.1 found.2 + address % span found.1 := by
  unfold PageWalk.translate mappingEntry
  rw [tables_eq, lookup_map, Option.map_map]
  rfl

theorem rawEntry_empty {n entry : ℕ} (h : entry % 2 = 0) : rawEntry n entry = .empty := if_pos h

theorem rawEntry_huge {n entry : ℕ} (h : entry % 2 ≠ 0) (hhuge : entry / 128 % 2 = 1) :
    rawEntry n entry = .value entry := by
  rw [rawEntry, if_neg h, if_pos (Or.inr hhuge)]

theorem rawEntry_table {n entry : ℕ} (h : entry % 2 ≠ 0) (hhuge : entry / 128 % 2 ≠ 1) :
    rawEntry (n + 1) entry = .table (pageNumber entry) := by
  rw [rawEntry, if_neg h, if_neg (by omega)]

theorem rawEntry_link {n page : ℕ} (hpage : page < 2 ^ 40) :
    rawEntry (n + 1) ((4096 * page ||| pagePresent ||| pageWrite) % 2 ^ 64) = .table page := by
  rw [linkEntry_eq hpage, rawEntry_table (by omega) (by omega), pageNumber_linkEntry hpage]

end Entries

section Levels

variable {cpu : Processor} {st : PlatformState} {size va pa n table t : ℕ}

/-- What `map_mmio_page` does where the walk ends so: there is nothing to do, or the comparison for
a huge page decides. -/
def Serves (va pa : ℕ) : Ending ℕ ℕ → Prop
  | .missing => False
  | .value n entry => (hugeMapped entry (12 + n * 9) va &&& not64 (pageSize - 1) == pa) = true
  | .bottom _ => True

theorem entries_read (P : Points cpu table t) (n : ℕ) (i : Fin 512) :
    entries st.memory n t i = rawEntry n (readEntry cpu st table i) := by
  rw [readEntry_eq P]
  rfl

/-- `linkFresh_entries`, decoded. -/
theorem linkFresh_rawEntries (A : AddressSpace cpu st size) (P : Points cpu table t)
    (hk : st.mmioPageTableCount < 64) (hne : poolTable st st.mmioPageTableCount ≠ t) (i : Fin 512) :
    (∀ n, entries (linkFresh cpu st table i).memory (n + 1) t i =
        .table (poolTable st st.mmioPageTableCount)) ∧
      (∀ n j, entries (linkFresh cpu st table i).memory n (poolTable st st.mmioPageTableCount) j =
        .empty) ∧
      ∀ x n j, x ≠ poolTable st st.mmioPageTableCount → x ≠ t ∨ j ≠ i →
        entries (linkFresh cpu st table i).memory n x j = entries st.memory n x j := by
  obtain ⟨hlink, hblank, hsame⟩ := linkFresh_entries A P hk hne i
  refine ⟨fun n => ?_, fun n j => ?_, fun x n j hx h => congrArg (rawEntry n) (hsame x j hx h)⟩
  · exact (congrArg (rawEntry (n + 1)) hlink).trans (rawEntry_link (A.poolTable_lt hk))
  · exact congrArg (rawEntry n) (hblank j)

/-- The loop lets the tree below the table it stands at grow. -/
theorem mapLevels_grows (A : AddressSpace cpu st size) (va pa : ℕ) (P : Points cpu table t)
    (hone : OnePath (entries st.memory) n t)
    (hfits : ∀ x, Reaches (entries st.memory) n t x → 4096 * x + 4096 ≤ size)
    (hunused : ∀ x, Unused st x → ¬Reaches (entries st.memory) n t x) :
    ∃ target, Grows (Unused st) (Unused (mapLevels cpu va pa n st table).2) (index va) n t target
        (entries st.memory) (entries (mapLevels cpu va pa n st table).2.memory) ∧
      ((mapLevels cpu va pa n st table).1 = true → Serves va pa target) := by
  induction n generalizing st table t with
  | zero =>
    refine ⟨.bottom t, ?_, fun _ => trivial⟩
    have hindex : (va >>> 12) &&& 0x1ff = index va 0 := index_eq va 0
    unfold mapLevels
    dsimp only
    rw [hindex]
    exact .write fun x hx k i =>
      congrArg (rawEntry k) (entryAt_writeEntry_other P _ (Or.inl hx))
  | succ n ih =>
    have hentry : entries st.memory (n + 1) t (index va (n + 1)) =
        rawEntry (n + 1) (readEntry cpu st table (index va (n + 1))) := entries_read P _ _
    cases mapLevels_step cpu va pa n st table with
    | full _ heq =>
      rw [heq]
      refine ⟨_, .refl hone, fun h => ?_⟩
      cases h
    | absent hpresent hk heq =>
      have hempty := hentry.trans (rawEntry_empty hpresent)
      have hu : Unused st (poolTable st st.mmioPageTableCount) :=
        ⟨st.mmioPageTableCount, le_refl _, hk, rfl⟩
      have hne : poolTable st st.mmioPageTableCount ≠ t := fun h => hunused _ hu (h ▸ .self)
      obtain ⟨hlink, hblank, hsame⟩ := linkFresh_rawEntries A P hk hne (index va (n + 1))
      have honly : ∀ x, Reaches (entries (linkFresh cpu st table (index va (n + 1))).memory) n
          (poolTable st st.mmioPageTableCount) x → x = poolTable st st.mmioPageTableCount :=
        fun x hx => reaches_blank hblank hx
      obtain ⟨target, G, htrue⟩ := ih (A.linkFresh _ _) (A.points_pool hk)
        (onePath_blank hblank) (fun x hx => by rw [honly x hx]; exact A.poolTable_fits hk)
        fun x hx hreach => hx.of_linkFresh.2 (honly x hreach)
      rw [heq]
      exact ⟨target, G.link hone hunused hu (fun x hx => hx.of_linkFresh) hempty (hlink n) hblank
        hsame, htrue⟩
    | huge hpresent hhuge heq =>
      rw [heq]
      refine ⟨_, .refl hone, fun h => ?_⟩
      rw [ending_value (hentry.trans (rawEntry_huge hpresent hhuge))]
      exact h
    | child hpresent hhuge heq =>
      have hchild := hentry.trans (rawEntry_table hpresent hhuge)
      obtain ⟨target, G, htrue⟩ := ih A (A.points_direct (hfits _ (.below hchild .self)))
        (hone.child hchild) (fun x hx => hfits x (.below hchild hx))
        fun x hu hx => hunused x hu (.below hchild hx)
      rw [heq]
      exact ⟨target, G.below hone hunused hchild, htrue⟩

/-- Where the walk ends well already, no table is taken from the pool. -/
theorem mapLevels_of_serves (A : AddressSpace cpu st size) (P : Points cpu table t)
    (hfits : ∀ x, Reaches (entries st.memory) n t x → 4096 * x + 4096 ≤ size)
    (h : Serves va pa (ending (entries st.memory) (index va) n t)) :
    (mapLevels cpu va pa n st table).1 = true ∧
      (mapLevels cpu va pa n st table).2.mmioPageTableCount = st.mmioPageTableCount := by
  induction n generalizing table t with
  | zero => exact ⟨rfl, rfl⟩
  | succ n ih =>
    have hentry : entries st.memory (n + 1) t (index va (n + 1)) =
        rawEntry (n + 1) (readEntry cpu st table (index va (n + 1))) := entries_read P _ _
    cases mapLevels_step cpu va pa n st table with
    | full hpresent _ | absent hpresent _ _ =>
      rw [ending_empty (hentry.trans (rawEntry_empty hpresent))] at h
      exact h.elim
    | huge hpresent hhuge heq =>
      rw [ending_value (hentry.trans (rawEntry_huge hpresent hhuge))] at h
      rw [heq]
      exact ⟨h, rfl⟩
    | child hpresent hhuge heq =>
      have hchild := hentry.trans (rawEntry_table hpresent hhuge)
      rw [ending_table hchild] at h
      rw [heq]
      exact ih (A.points_direct (hfits _ (.below hchild .self)))
        (fun x hx => hfits x (.below hchild hx)) h

/-- A huge page that does not pass the comparison is refused. -/
theorem mapLevels_of_value (A : AddressSpace cpu st size) (P : Points cpu table t)
    (hfits : ∀ x, Reaches (entries st.memory) n t x → 4096 * x + 4096 ≤ size) {k entry : ℕ}
    (h : ending (entries st.memory) (index va) n t = .value k entry) :
    mapLevels cpu va pa n st table =
      (hugeMapped entry (12 + k * 9) va &&& not64 (pageSize - 1) == pa, st) ∧
      entry < 2 ^ 64 ∧ k ≤ n ∧ k ≠ 0 := by
  induction n generalizing table t with
  | zero => cases h
  | succ n ih =>
    have hentry : entries st.memory (n + 1) t (index va (n + 1)) =
        rawEntry (n + 1) (readEntry cpu st table (index va (n + 1))) := entries_read P _ _
    cases mapLevels_step cpu va pa n st table with
    | full hpresent _ | absent hpresent _ _ =>
      rw [ending_empty (hentry.trans (rawEntry_empty hpresent))] at h
      cases h
    | huge hpresent hhuge heq =>
      rw [ending_value (hentry.trans (rawEntry_huge hpresent hhuge))] at h
      cases h
      exact ⟨heq, readEntry_lt P _, le_refl _, Nat.succ_ne_zero n⟩
    | child hpresent hhuge heq =>
      have hchild := hentry.trans (rawEntry_table hpresent hhuge)
      rw [ending_table hchild] at h
      rw [heq]
      obtain ⟨hresult, hlt, hle, hne⟩ := ih (A.points_direct (hfits _ (.below hchild .self)))
        (fun x hx => hfits x (.below hchild hx)) h
      exact ⟨hresult, hlt, Nat.le_succ_of_le hle, hne⟩

end Levels

section Pages

variable {cpu : Processor} {st : PlatformState} {size va pa : ℕ}

/-- The variables that mapping a page leaves alone. -/
structure SameConfiguration (st st' : PlatformState) : Prop where
  directMapOffset : st'.directMapOffset = st.directMapOffset
  executablePhysicalBase : st'.executablePhysicalBase = st.executablePhysicalBase
  executableVirtualBase : st'.executableVirtualBase = st.executableVirtualBase
  mmioPageTables : st'.mmioPageTables = st.mmioPageTables

theorem SameConfiguration.trans {st₁ st₂ st₃ : PlatformState} (h : SameConfiguration st₁ st₂)
    (h' : SameConfiguration st₂ st₃) : SameConfiguration st₁ st₃ :=
  ⟨h'.1.trans h.1, h'.2.trans h.2, h'.3.trans h.3, h'.4.trans h.4⟩

theorem SameConfiguration.tablePhysicalAddress {st' : PlatformState} (h : SameConfiguration st st')
    (table : ℕ) : tablePhysicalAddress st' table = tablePhysicalAddress st table := by
  unfold PageTableModel.tablePhysicalAddress
  rw [h.executablePhysicalBase, h.executableVirtualBase]

theorem SameConfiguration.addressSpace {st' : PlatformState} (h : SameConfiguration st st')
    (A : AddressSpace cpu st size) : AddressSpace cpu st' size where
  size_le := A.size_le
  direct_map := by
    rw [h.directMapOffset]
    exact A.direct_map
  kernel_image := by
    rw [h.mmioPageTables]
    simp only [h.tablePhysicalAddress]
    exact A.kernel_image
  pool_aligned := by
    rw [h.mmioPageTables, h.tablePhysicalAddress]
    exact A.pool_aligned
  pool_fits := by
    rw [h.mmioPageTables, h.tablePhysicalAddress]
    exact A.pool_fits

theorem linkFresh_same (table i : ℕ) : SameConfiguration st (linkFresh cpu st table i) := by
  constructor <;> unfold linkFresh writeEntry zeroPage <;> rfl

theorem mapLevels_same (va pa n table : ℕ) :
    SameConfiguration st (mapLevels cpu va pa n st table).2 := by
  induction n generalizing st table with
  | zero => exact ⟨rfl, rfl, rfl, rfl⟩
  | succ n ih =>
    cases mapLevels_step cpu va pa n st table with
    | full _ heq | huge _ _ heq =>
      rw [heq]
      exact ⟨rfl, rfl, rfl, rfl⟩
    | absent _ _ heq =>
      rw [heq]
      exact (linkFresh_same _ _).trans (ih _)
    | child _ _ heq =>
      rw [heq]
      exact ih _

/-- The call from the root of the tree. -/
theorem mapMmioPage_root (cpu : Processor) (st : PlatformState) (va pa : ℕ) :
    mapMmioPage cpu st va pa = mapLevels cpu va pa (topLevel cpu) st
      (add64 st.directMapOffset (4096 * rootTable cpu)) := by
  have hroot : cpu.cr3 &&& pageAddressMask = 4096 * rootTable cpu := addressMask_eq _
  unfold mapMmioPage
  rw [pagingLevels_eq, hroot]

theorem mapMmioPage_same (cpu : Processor) (st : PlatformState) (va pa : ℕ) :
    SameConfiguration st (mapMmioPage cpu st va pa).2 := by
  rw [mapMmioPage_root]
  exact mapLevels_same va pa _ _

/-- The page is served from the tables as they are. -/
def Served (cpu : Processor) (st : PlatformState) (va pa : ℕ) : Prop :=
  Serves va pa (ending (entries st.memory) (index va) (topLevel cpu) (rootTable cpu))

theorem reaches_entries {n t x : ℕ} :
    Reaches (tables st.memory) n t x ↔ Reaches (entries st.memory) n t x := by
  rw [tables_eq]
  exact reaches_map

theorem onePath_entries {n t : ℕ} :
    OnePath (tables st.memory) n t ↔ OnePath (entries st.memory) n t := by
  rw [tables_eq]
  exact onePath_map

/-- The whole tree grows. -/
theorem mapMmioPage_grows (T : PageTables cpu st size) (va pa : ℕ) :
    ∃ target, Grows (Unused st) (Unused (mapMmioPage cpu st va pa).2) (index va) (topLevel cpu)
        (rootTable cpu) target (entries st.memory)
        (entries (mapMmioPage cpu st va pa).2.memory) ∧
      ((mapMmioPage cpu st va pa).1 = true → Serves va pa target) := by
  rw [mapMmioPage_root]
  exact mapLevels_grows T.space va pa (T.space.points_direct (T.fits _ .self))
    (onePath_entries.mp T.one_path) (fun x hx => T.fits x (reaches_entries.mpr hx))
    fun x hu hx => T.unused x hu (reaches_entries.mpr hx)

/-- The tree stays a tree, beside the tables that are still unused. -/
theorem mapMmioPage_tables (T : PageTables cpu st size) (va pa : ℕ) :
    PageTables cpu (mapMmioPage cpu st va pa).2 size := by
  obtain ⟨target, G, -⟩ := mapMmioPage_grows T va pa
  refine ⟨(mapMmioPage_same cpu st va pa).addressSpace T.space, onePath_entries.mpr G.onePath,
    fun x hx => ?_, fun x hu hx => ?_⟩
  · rcases G.reaches x (reaches_entries.mp hx) with hold | ⟨⟨k, -, hk, rfl⟩, -⟩
    · exact T.fits x (reaches_entries.mpr hold)
    · exact T.space.poolTable_fits hk
  · rcases G.reaches x (reaches_entries.mp hx) with hold | ⟨-, hused⟩
    · exact T.unused x (G.remaining x hu) (reaches_entries.mpr hold)
    · exact hused hu

theorem mapMmioPage_keeps (T : PageTables cpu st size) (va pa : ℕ) {va' pa' : ℕ}
    (h : Served cpu st va' pa') : Served cpu (mapMmioPage cpu st va pa).2 va' pa' := by
  obtain ⟨target, G, -⟩ := mapMmioPage_grows T va pa
  unfold Served at h ⊢
  rwa [G.endings (index va') fun hmissing => by rw [hmissing] at h; exact h]

theorem mapMmioPage_serves (T : PageTables cpu st size)
    (h : (mapMmioPage cpu st va pa).1 = true) : Served cpu (mapMmioPage cpu st va pa).2 va pa := by
  obtain ⟨target, G, htrue⟩ := mapMmioPage_grows T va pa
  unfold Served
  rw [G.target_eq]
  exact htrue h

theorem mapMmioPage_of_served (T : PageTables cpu st size) (h : Served cpu st va pa) :
    (mapMmioPage cpu st va pa).1 = true ∧
      (mapMmioPage cpu st va pa).2.mmioPageTableCount = st.mmioPageTableCount := by
  rw [mapMmioPage_root]
  exact mapLevels_of_serves T.space (T.space.points_direct (T.fits _ .self))
    (fun x hx => T.fits x (reaches_entries.mpr hx)) h

/-- At a huge page the comparison decides, and nothing changes. -/
theorem mapMmioPage_of_value (T : PageTables cpu st size) (pa : ℕ) {k entry : ℕ}
    (h : ending (entries st.memory) (index va) (topLevel cpu) (rootTable cpu) = .value k entry) :
    mapMmioPage cpu st va pa =
      (hugeMapped entry (12 + k * 9) va &&& not64 (pageSize - 1) == pa, st) ∧
      entry < 2 ^ 64 ∧ k ≤ topLevel cpu ∧ k ≠ 0 := by
  rw [mapMmioPage_root]
  exact mapLevels_of_value T.space (T.space.points_direct (T.fits _ .self))
    (fun x hx => T.fits x (reaches_entries.mpr hx)) h

/-- What is asked of a call for a page that is mapped already. -/
structure Accepted (cpu : Processor) (st : PlatformState) (va pa : ℕ) : Prop where
  returned : (mapMmioPage cpu st va pa).1 = true
  tableCount : (mapMmioPage cpu st va pa).2.mmioPageTableCount = st.mmioPageTableCount
  translations : ∀ a, PageWalk.translate cpu (mapMmioPage cpu st va pa).2.memory a =
    PageWalk.translate cpu st.memory a

/-- Where the walk ends at the last level it finds the frame of the page. -/
theorem mappingEntry_of_bottom {m : Memory} {x : ℕ} (hva : va % 4096 = 0)
    (h : PageWalk.translate cpu m va = some pa)
    (hbottom : ending (entries m) (index va) (topLevel cpu) (rootTable cpu) = .bottom x) :
    (mappingEntry cpu m va).map (fun found => (found.1, frame found.1 found.2)) = some (0, pa) := by
  rw [translate_eq] at h
  obtain ⟨⟨k, entry⟩, hentry, hsum⟩ := Option.map_eq_some_iff.mp h
  have hk : k = 0 := level_of_bottom hbottom hentry
  subst hk
  have hzero : va % span 0 = 0 := hva
  dsimp only at hsum
  rw [hzero, Nat.add_zero] at hsum
  rw [hentry, Option.map_some, hsum]

/-- An entry of the last level that maps the page is written again, with other flags. -/
theorem accepted_of_bottom (T : PageTables cpu st size) (hva : va % 4096 = 0) (hpa : pa < 2 ^ 52)
    (hpa' : pa % 4096 = 0) (h : PageWalk.translate cpu st.memory va = some pa) {x : ℕ}
    (hbottom : ending (entries st.memory) (index va) (topLevel cpu) (rootTable cpu) = .bottom x) :
    Accepted cpu st va pa := by
  have hserved : Served cpu st va pa := by
    unfold Served
    rw [hbottom]
    trivial
  obtain ⟨hreturned, hcount⟩ := mapMmioPage_of_served T hserved
  refine ⟨hreturned, hcount, fun a => ?_⟩
  obtain ⟨result, H, htrue, -⟩ := mapMmioPage_grafts T hva hpa hpa'
  obtain ⟨found, hresult, hsum⟩ := htrue hreturned
  have htranslates : PageWalk.translate cpu (mapMmioPage cpu st va pa).2.memory va = some pa := by
    unfold PageWalk.translate
    rw [H.result_eq, hresult, Option.map_some, hsum]
  obtain ⟨target, G, -⟩ := mapMmioPage_grows T va pa
  have hbottom' := (G.endings (index va) fun hmissing => by
    cases hbottom.symm.trans hmissing).trans hbottom
  -- before and after, the walk ends in an entry of the last level for the page
  have hbefore := mappingEntry_of_bottom hva h hbottom
  have hafter := mappingEntry_of_bottom hva htranslates hbottom'
  by_cases hsame : ∀ k, k ≤ topLevel cpu → index a k = index va k
  · have hentry (m : Memory) : mappingEntry cpu m a = mappingEntry cpu m va := lookup_path hsame
    have hmap (m : Memory) : PageWalk.translate cpu m a =
        ((mappingEntry cpu m va).map fun found => (found.1, frame found.1 found.2)).map
          fun found => found.2 + a % span found.1 := by
      rw [translate_eq, hentry, Option.map_map]
      rfl
    rw [hmap, hmap, hbefore, hafter]
  · push Not at hsame
    unfold PageWalk.translate
    rw [H.others _ hsame]

/-- A huge page that maps the page is accepted where its entry has no bit above the address. -/
theorem accepted_iff_of_value (T : PageTables cpu st size) (hva : va % 4096 = 0)
    (h : PageWalk.translate cpu st.memory va = some pa) {k entry : ℕ}
    (hvalue : ending (entries st.memory) (index va) (topLevel cpu) (rootTable cpu) =
      .value k entry) : Accepted cpu st va pa ↔ entry < 2 ^ 52 := by
  obtain ⟨heq, hlt, hle, -⟩ := mapMmioPage_of_value T pa hvalue
  have hfound : mappingEntry cpu st.memory va = some (k, entry) := lookup_of_value hvalue
  rw [translate_eq, hfound, Option.map_some, Option.some.injEq] at h
  rw [← huge_accepts_iff hlt (hle.trans (topLevel_le cpu)) hva h]
  constructor
  · intro hA
    have hreturned := hA.returned
    rwa [heq] at hreturned
  · intro hcompare
    refine ⟨?_, ?_, fun a => ?_⟩ <;> rw [heq]
    exact hcompare

theorem accepted_iff (T : PageTables cpu st size) (hva : va % 4096 = 0) (hpa : pa < 2 ^ 52)
    (hpa' : pa % 4096 = 0) (h : PageWalk.translate cpu st.memory va = some pa) :
    Accepted cpu st va pa ↔
      ∀ n entry, mappingEntry cpu st.memory va = some (n, entry) → n = 0 ∨ entry < 2 ^ 52 := by
  cases hend : ending (entries st.memory) (index va) (topLevel cpu) (rootTable cpu) with
  | missing =>
    have hnone : mappingEntry cpu st.memory va = none := lookup_of_missing hend
    rw [translate_eq, hnone] at h
    cases h
  | value k entry =>
    have hfound : mappingEntry cpu st.memory va = some (k, entry) := lookup_of_value hend
    obtain ⟨-, -, -, hk⟩ := mapMmioPage_of_value T pa hend
    rw [accepted_iff_of_value T hva h hend, hfound]
    constructor
    · rintro hlt n e heq
      cases heq
      exact Or.inr hlt
    · intro hall
      exact (hall k entry rfl).resolve_left hk
  | bottom x =>
    exact iff_of_true (accepted_of_bottom T hva hpa hpa' h hend) fun n entry hfound =>
      Or.inl (level_of_bottom hend hfound)

end Pages

section Devices

variable {cpu : Processor} {st st' : PlatformState} {size : ℕ}

/-- After a successful call every page of it is served, and so is every page that was before. -/
theorem mapAll_serves (T : PageTables cpu st size) {pages : List ℕ} {calls calls' : List MmioCall}
    (h : mapAll cpu pages st calls = (true, st', calls')) :
    PageTables cpu st' size ∧ SameConfiguration st st' ∧
      (∀ va pa, Served cpu st va pa → Served cpu st' va pa) ∧
      ∀ page ∈ pages, Served cpu st' (add64 st.directMapOffset page) page := by
  induction pages generalizing st calls with
  | nil =>
    cases h
    exact ⟨T, ⟨rfl, rfl, rfl, rfl⟩, fun _ _ hs => hs, fun page hpage => by cases hpage⟩
  | cons page pages ih =>
    rw [mapAll] at h
    dsimp only at h
    split_ifs at h with hmapped
    · cases h
    rw [Bool.not_eq_true', Bool.not_eq_false] at hmapped
    obtain ⟨T', hconfig, hkeeps, hpages⟩ := ih (mapMmioPage_tables T _ _) h
    have hsame := mapMmioPage_same cpu st (add64 st.directMapOffset page) page
    refine ⟨T', hsame.trans hconfig, fun va pa hs => hkeeps va pa (mapMmioPage_keeps T _ _ hs),
      fun page' hpage' => ?_⟩
    rcases List.mem_cons.mp hpage' with rfl | hpage'
    · exact hkeeps _ _ (mapMmioPage_serves T hmapped)
    · rw [← hsame.directMapOffset]
      exact hpages page' hpage'

/-- Pages that are served are mapped again without a table from the pool. -/
theorem mapAll_of_served (T : PageTables cpu st size) {pages : List ℕ} (calls : List MmioCall)
    (h : ∀ page ∈ pages, Served cpu st (add64 st.directMapOffset page) page) :
    ∃ st' calls', mapAll cpu pages st calls = (true, st', calls') ∧
      st'.directMapOffset = st.directMapOffset ∧
      st'.mmioPageTableCount = st.mmioPageTableCount := by
  induction pages generalizing st calls with
  | nil => exact ⟨st, calls, rfl, rfl, rfl⟩
  | cons page pages ih =>
    obtain ⟨hmapped, hcount⟩ := mapMmioPage_of_served T (h page List.mem_cons_self)
    have hsame := mapMmioPage_same cpu st (add64 st.directMapOffset page) page
    obtain ⟨st', calls', heq, hoffset, hcount'⟩ := ih
      (mapMmioPage_tables T (add64 st.directMapOffset page) page) (calls ++ [⟨page, true⟩])
      fun page' hpage' => by
        rw [hsame.directMapOffset]
        exact mapMmioPage_keeps T _ _ (h page' (List.mem_cons_of_mem _ hpage'))
    refine ⟨st', calls', ?_, hoffset.trans hsame.directMapOffset, hcount'.trans hcount⟩
    rw [mapAll]
    dsimp only
    rw [hmapped]
    exact heq

/-- A second identical call succeeds, and takes no table from the pool. -/
theorem platformMapMmio_again (T : PageTables cpu st size) {physicalAddress length pointer : ℕ}
    (hphysical : physicalAddress < 2 ^ 64) {calls : List MmioCall}
    (h : platformMapMmio cpu st physicalAddress length = some (pointer, st', calls))
    (hpointer : pointer ≠ 0) : ∃ st'' calls',
      platformMapMmio cpu st' physicalAddress length = some (pointer, st'', calls') ∧
      st''.mmioPageTableCount = st'.mmioPageTableCount := by
  by_cases hrefused : Refused st physicalAddress length
  · rw [platformMapMmio, if_pos hrefused] at h
    cases h
    exact absurd rfl hpointer
  rw [platformMapMmio_eq hphysical hrefused] at h
  cases hall : mapAll cpu (mmioPages physicalAddress length) st [] with
  | mk mapped rest =>
    obtain ⟨st₁, calls₁⟩ := rest
    rw [hall] at h
    cases mapped with
    | false =>
      cases h
      exact absurd rfl hpointer
    | true =>
      cases h
      obtain ⟨T', hconfig, -, hpages⟩ := mapAll_serves T hall
      have hrefused' : ¬Refused st' physicalAddress length := by
        unfold Refused at hrefused ⊢
        rwa [hconfig.directMapOffset, hconfig.executableVirtualBase]
      obtain ⟨st'', calls', hagain, hoffset, hcount⟩ := mapAll_of_served T' [] fun page hpage => by
        rw [hconfig.directMapOffset]
        exact hpages page hpage
      refine ⟨st'', calls', ?_, hcount⟩
      rw [platformMapMmio_eq hphysical hrefused', hagain]
      dsimp only
      rw [hoffset]

/-- A mapping that exists is accepted unless it is a huge page whose entry has a bit from 52 on;
a device that has been mapped can be mapped again in any case. -/
theorem mapping_accepted_iff (T : PageTables cpu st size) :
    (∀ va pa, va % 4096 = 0 → pa < 2 ^ 52 → pa % 4096 = 0 →
      PageWalk.translate cpu st.memory va = some pa →
      (Accepted cpu st va pa ↔
        ∀ n entry, mappingEntry cpu st.memory va = some (n, entry) → n = 0 ∨ entry < 2 ^ 52)) ∧
    ∀ physicalAddress length pointer st' calls, physicalAddress < 2 ^ 64 →
      platformMapMmio cpu st physicalAddress length = some (pointer, st', calls) → pointer ≠ 0 →
      ∃ st'' calls', platformMapMmio cpu st' physicalAddress length = some (pointer, st'', calls') ∧
        st''.mmioPageTableCount = st'.mmioPageTableCount :=
  ⟨fun _ _ hva hpa hpa' h => accepted_iff T hva hpa hpa' h,
    fun _ _ _ _ _ hphysical h hpointer => platformMapMmio_again T hphysical h hpointer⟩

/-- A direct map with a huge page at 3 GiB, whose entry is left open. -/
def largePlatform (entry : ℕ) : PlatformState :=
  { freshPlatform with
    memory := store (store (fun _ => 0) (4096 + 8 * 256) 8 0x2003) (8192 + 8 * 3) 8 entry }

theorem largePlatform_entryAt (entry t : ℕ) (i : Fin 512) :
    entryAt (largePlatform entry).memory t i =
      if t = 2 ∧ i.val = 3 then entry % 2 ^ 64
      else if t = 1 ∧ i.val = 256 then 0x2003 else 0 := by
  unfold entryAt largePlatform
  dsimp only
  by_cases hlarge : t = 2 ∧ i.val = 3
  · rw [if_pos hlarge, hlarge.1, hlarge.2]
    exact load_store_same
  rw [if_neg hlarge, load_store_of_disjoint (by omega)]
  by_cases hroot : t = 1 ∧ i.val = 256
  · rw [if_pos hroot, hroot.1, hroot.2]
    exact load_store_same
  · rw [if_neg hroot, load_store_of_disjoint (by omega)]
    exact (load_of_bytes fun k _ => by simp).trans (Nat.zero_mod _)

theorem largePlatform_leads {entry x : ℕ} {is : List (Fin 512)} (hpresent : entry % 2 = 1)
    (hhuge : entry / 128 % 2 = 1) (h : Leads (tables (largePlatform entry).memory) 3 1 is x) :
    x = 1 ∧ is = [] ∨ x = 2 ∧ is = [⟨256, by decide⟩] := by
  have hroot : ∀ i t, tables (largePlatform entry).memory 3 1 i = .table t →
      t = 2 ∧ i.val = 256 := by
    intro i t hi
    change decode 3 (entryAt _ 1 i) = .table t at hi
    rw [largePlatform_entryAt, if_neg (by omega)] at hi
    by_cases hi' : i.val = 256
    · rw [if_pos ⟨rfl, hi'⟩] at hi
      cases hi
      exact ⟨rfl, hi'⟩
    · rw [if_neg fun h => hi' h.2] at hi
      cases hi
  have hlast : ∀ i t, tables (largePlatform entry).memory 2 2 i ≠ .table t := by
    intro i t hi
    change decode 2 (entryAt _ 2 i) = .table t at hi
    rw [largePlatform_entryAt] at hi
    by_cases hi' : i.val = 3
    · rw [if_pos ⟨rfl, hi'⟩, decode, if_neg (by omega), if_pos (Or.inr (by omega))] at hi
      cases hi
    · rw [if_neg fun h => hi' h.2, if_neg (by omega)] at hi
      cases hi
  cases h with
  | here => exact Or.inl ⟨rfl, rfl⟩
  | @step _ _ _ _ i _ hi rest =>
    obtain ⟨rfl, hi'⟩ := hroot _ _ hi
    obtain rfl : i = ⟨256, by decide⟩ := Fin.ext hi'
    cases rest with
    | here => exact Or.inr ⟨rfl, rfl⟩
    | step hj _ => exact absurd hj (hlast _ _)

theorem largePlatform_same (entry : ℕ) : SameConfiguration freshPlatform (largePlatform entry) :=
  ⟨rfl, rfl, rfl, rfl⟩

theorem largePlatform_tables {entry : ℕ} (hpresent : entry % 2 = 1) (hhuge : entry / 128 % 2 = 1) :
    PageTables freshProcessor (largePlatform entry) 0x300000 where
  space := (largePlatform_same entry).addressSpace freshPlatform_tables.space
  one_path := fun x is js hi hj => by
    rcases largePlatform_leads hpresent hhuge hi with ⟨rfl, rfl⟩ | ⟨rfl, rfl⟩ <;>
      rcases largePlatform_leads hpresent hhuge hj with ⟨h, rfl⟩ | ⟨h, rfl⟩ <;>
        first | rfl | cases h
  fits := fun x hx => by
    obtain ⟨is, hx⟩ := hx
    rcases largePlatform_leads hpresent hhuge hx with ⟨rfl, -⟩ | ⟨rfl, -⟩ <;> decide
  unused := fun x hu hx => by
    obtain ⟨k, -, -, rfl⟩ := hu
    obtain ⟨is, hx⟩ := hx
    have hsame : poolTable (largePlatform entry) k = poolTable freshPlatform k := rfl
    have hpool : poolTable freshPlatform k = 512 + k := rfl
    rcases largePlatform_leads hpresent hhuge hx with ⟨h, -⟩ | ⟨h, -⟩ <;> omega

theorem mapping_accepted_iff_huge :
    Accepted freshProcessor (largePlatform 0xc0000083) 0xffff8000c0000000 0xc0000000 ∧
      ∃ st' calls st'' calls', platformMapMmio freshProcessor (largePlatform 0xc0000083)
          0xc0000000 0x1000 = some (0xffff8000c0000000, st', calls) ∧
        platformMapMmio freshProcessor st' 0xc0000000 0x1000 =
          some (0xffff8000c0000000, st'', calls') := by
  have hexisting := @mapping_accepted_iff freshProcessor (largePlatform 0xc0000083) 0x300000
    (largePlatform_tables (by decide) (by decide))
  have hfound : mappingEntry freshProcessor (largePlatform 0xc0000083).memory 0xffff8000c0000000 =
      some (2, 0xc0000083) := by decide +kernel
  have hpointer : (platformMapMmio freshProcessor (largePlatform 0xc0000083) 0xc0000000
      0x1000).map (·.1) = some 0xffff8000c0000000 := by decide +kernel
  obtain ⟨⟨pointer, st', calls⟩, hfirst, rfl⟩ := Option.map_eq_some_iff.mp hpointer
  obtain ⟨st'', calls', hagain, -⟩ := hexisting.2 _ _ _ _ _ (by decide) hfirst (by decide)
  refine ⟨(hexisting.1 _ _ (by decide) (by decide) (by decide) (by decide +kernel)).mpr
    fun n entry h => ?_, st', calls, st'', calls', hfirst, hagain⟩
  cases hfound.symm.trans h
  exact Or.inr (by decide)

/-- The same page with the no-execute bit in its entry is refused. -/
theorem mapping_refused_noExecute :
    PageTables freshProcessor (largePlatform 0x80000000c0000083) 0x300000 ∧
      PageWalk.translate freshProcessor (largePlatform 0x80000000c0000083).memory
        0xffff8000c0000000 = some 0xc0000000 ∧
      (mapMmioPage freshProcessor (largePlatform 0x80000000c0000083) 0xffff8000c0000000
        0xc0000000).1 = false :=
  ⟨largePlatform_tables (by decide) (by decide), by decide +kernel, by decide +kernel⟩

end Devices

end JsOs.ExistingMappings

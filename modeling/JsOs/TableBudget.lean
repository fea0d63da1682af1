import JsOs.AbsentTables
import JsOs.DeviceRuns
import Mathlib.Algebra.Order.BigOperators.Group.Finset
import Mathlib.Data.Nat.ModEq
import Mathlib.Order.Interval.Finset.Nat

/-!
# The budget of page tables

The kernel has 64 page tables for `map_mmio_page` and never takes one back, so how long they last is
a matter of what all the calls together need: one table for each part of the address space, of each
level, that a device touches and that has none yet.
-/

namespace JsOs.TableBudget

open ByteMemory MachineWords PageTableModel TableTrees TableGrowth AbsentTables PageWalk PageMapping
open MmioModel MmioRanges ExistingMappings TransitionRuns DeviceRuns

section Levels

variable {cpu : Processor} {st : PlatformState} {size va pa n table t : ℕ}

/-- A huge page in the way, which `map_mmio_page` does not take for the page that is asked for. -/
def Refuses (va pa : ℕ) : Ending ℕ ℕ → Prop
  | .value n entry => ¬(hugeMapped entry (12 + n * 9) va &&& not64 (pageSize - 1) == pa) = true
  | _ => False

/-- What the loop takes from the tables of the kernel: all that the path lacks, as long as there
are any. The page is mapped if they were enough and no huge page was in the way. -/
theorem mapLevels_links (A : AddressSpace cpu st size) (va pa : ℕ) (P : Points cpu table t)
    (hone : OnePath (entries st.memory) n t)
    (hfits : ∀ x, Reaches (entries st.memory) n t x → 4096 * x + 4096 ≤ size)
    (hunused : ∀ x, Unused st x → ¬Reaches (entries st.memory) n t x)
    (hcount : st.mmioPageTableCount ≤ 64) :
    ∃ spent, (mapLevels cpu va pa n st table).2.mmioPageTableCount = st.mmioPageTableCount + spent ∧
      spent = min (64 - st.mmioPageTableCount) (absent (entries st.memory) (index va) n t) ∧
      Links (index va) n t spent (entries st.memory)
        (entries (mapLevels cpu va pa n st table).2.memory) ∧
      ((mapLevels cpu va pa n st table).1 = true ↔
        ¬Refuses va pa (ending (entries st.memory) (index va) n t) ∧
          st.mmioPageTableCount + absent (entries st.memory) (index va) n t ≤ 64) := by
  induction n generalizing st table t with
  | zero =>
    exact ⟨0, rfl, (Nat.min_eq_right (Nat.zero_le _)).symm, .last _ _ _ _,
      iff_of_true rfl ⟨fun h => h, hcount⟩⟩
  | succ n ih =>
    have hentry : entries st.memory (n + 1) t (index va (n + 1)) =
        rawEntry (n + 1) (readEntry cpu st table (index va (n + 1))) := entries_read P _ _
    by_cases hpresent : readEntry cpu st table (index va (n + 1)) % 2 = 0
    · have hempty := hentry.trans (rawEntry_empty hpresent)
      rw [absent_empty hempty, ending_empty hempty]
      by_cases hk : st.mmioPageTableCount < 64
      · have hu : Unused st (poolTable st st.mmioPageTableCount) :=
          ⟨st.mmioPageTableCount, le_refl _, hk, rfl⟩
        have hne : poolTable st st.mmioPageTableCount ≠ t := fun h => hunused _ hu (h ▸ .self)
        obtain ⟨hlink, hblank, hsame⟩ := linkFresh_rawEntries A P hk hne (index va (n + 1))
        have honly : ∀ x, Reaches (entries (linkFresh cpu st table (index va (n + 1))).memory) n
            (poolTable st st.mmioPageTableCount) x → x = poolTable st st.mmioPageTableCount :=
          fun x hx => reaches_blank hblank hx
        have hfits' : ∀ x, Reaches (entries (linkFresh cpu st table (index va (n + 1))).memory) n
            (poolTable st st.mmioPageTableCount) x → 4096 * x + 4096 ≤ size := fun x hx => by
          rw [honly x hx]
          exact A.poolTable_fits hk
        have hunused' : ∀ x, Unused (linkFresh cpu st table (index va (n + 1))) x →
            ¬Reaches (entries (linkFresh cpu st table (index va (n + 1))).memory) n
              (poolTable st st.mmioPageTableCount) x :=
          fun x hx hreach => hx.of_linkFresh.2 (honly x hreach)
        obtain ⟨target, G, -⟩ := mapLevels_grows (A.linkFresh _ _) va pa (A.points_pool hk)
          (onePath_blank hblank) hfits' hunused'
        obtain ⟨spent, hspent, hmin, L, hiff⟩ := ih (A.linkFresh _ _) (A.points_pool hk)
          (onePath_blank hblank) hfits' hunused' (by rw [linkFresh_mmioPageTableCount]; omega)
        rw [linkFresh_mmioPageTableCount] at hspent hmin hiff
        rw [absent_blank (hblank n)] at hmin hiff
        rw [mapLevels_absent hpresent hk]
        refine ⟨spent + 1, by rw [hspent]; omega, by omega,
          L.link G hone hunused hu (fun x hx => hx.of_linkFresh) hempty (hlink n) hblank hsame, ?_⟩
        rw [hiff]
        have hblankEnding : ¬Refuses va pa (ending (entries (linkFresh cpu st table
            (index va (n + 1))).memory) (index va) n (poolTable st st.mmioPageTableCount)) := by
          cases n with
          | zero => exact fun h => h
          | succ n =>
            rw [ending_empty (hblank _ _)]
            exact fun h => h
        exact and_congr (iff_of_true hblankEnding fun h => h) (by omega)
      · rw [mapLevels_full hpresent hk]
        exact ⟨0, rfl, by omega, .refl _ _ _ _, iff_of_false Bool.false_ne_true (by omega)⟩
    · by_cases hhuge : readEntry cpu st table (index va (n + 1)) / 128 % 2 = 1
      · have hvalue := hentry.trans (rawEntry_huge hpresent hhuge)
        rw [mapLevels_huge hpresent hhuge, absent_value hvalue, ending_value hvalue]
        refine ⟨0, rfl, by omega, .refl _ _ _ _, ?_⟩
        simp only [Refuses, not_not]
        exact (and_iff_left hcount).symm
      · have hchild := hentry.trans (rawEntry_table hpresent hhuge)
        have hpoints := A.points_direct (hfits _ (.below hchild .self))
        obtain ⟨target, G, -⟩ := mapLevels_grows A va pa hpoints (hone.child hchild)
          (fun x hx => hfits x (.below hchild hx)) fun x hu hx => hunused x hu (.below hchild hx)
        obtain ⟨spent, hspent, hmin, L, hiff⟩ := ih A hpoints (hone.child hchild)
          (fun x hx => hfits x (.below hchild hx)) (fun x hu hx => hunused x hu (.below hchild hx))
          hcount
        rw [mapLevels_child hpresent hhuge, absent_table hchild, ending_table hchild]
        exact ⟨spent, hspent, hmin, L.below G hone hunused hchild, hiff⟩

end Levels

section Budget

/-- The page tables that the page lacks. -/
def lacking (cpu : Processor) (st : PlatformState) (va : ℕ) : ℕ :=
  absent (entries st.memory) (index va) (topLevel cpu) (rootTable cpu)

/-- A huge page stands where the page should be. -/
def Blocked (cpu : Processor) (st : PlatformState) (va pa : ℕ) : Prop :=
  Refuses va pa (ending (entries st.memory) (index va) (topLevel cpu) (rootTable cpu))

/-- The tables below the root on the way to the page, each named by what it covers. -/
def slots (cpu : Processor) (va : ℕ) : Finset (ℕ × ℕ) :=
  (Finset.Icc 1 (topLevel cpu)).image fun n => (n, va / span n)

/-- How many of the tables are still missing. -/
def vacant (cpu : Processor) (st : PlatformState) (tables : Finset (ℕ × ℕ)) : ℕ :=
  (tables.filter fun s => s.1 ≤ lacking cpu st (s.2 * span s.1)).card

variable {cpu : Processor} {st st' : PlatformState} {size va pa n : ℕ} {tables : Finset (ℕ × ℕ)}

theorem mapMmioPage_links (T : PageTables cpu st size) (va pa : ℕ)
    (hcount : st.mmioPageTableCount ≤ 64) :
    ∃ spent, (mapMmioPage cpu st va pa).2.mmioPageTableCount = st.mmioPageTableCount + spent ∧
      spent = min (64 - st.mmioPageTableCount) (lacking cpu st va) ∧
      Links (index va) (topLevel cpu) (rootTable cpu) spent (entries st.memory)
        (entries (mapMmioPage cpu st va pa).2.memory) ∧
      ((mapMmioPage cpu st va pa).1 = true ↔
        ¬Blocked cpu st va pa ∧ st.mmioPageTableCount + lacking cpu st va ≤ 64) := by
  rw [mapMmioPage_root]
  exact mapLevels_links T.space va pa (T.space.points_direct (T.fits _ .self))
    (onePath_entries.mp T.one_path) (fun x hx => T.fits x (reaches_entries.mpr hx))
    (fun x hu hx => T.unused x hu (reaches_entries.mpr hx)) hcount

/-- Where a table begins, it is missing as it is missing anywhere in it. -/
theorem le_lacking_slot (hn : 1 ≤ n) :
    n ≤ lacking cpu st (va / span n * span n) ↔ n ≤ lacking cpu st va := by
  have hpath : ∀ m, n - 1 < m → m ≤ topLevel cpu → index (va / span n * span n) m = index va m := by
    intro m hm _
    have hspan : span m = span n * 2 ^ (9 * (m - n)) := by
      unfold span
      rw [← pow_add]
      congr 1
      omega
    have hpos : 0 < span n := Nat.two_pow_pos _
    apply Fin.ext
    change va / span n * span n / span m % 512 = va / span m % 512
    rw [hspan, ← Nat.div_div_eq_div_mul, ← Nat.div_div_eq_div_mul, Nat.mul_div_cancel _ hpos]
  have hiff := lt_absent_path (c := entries st.memory) (t := rootTable cpu) hpath
  unfold lacking
  omega

/-- The tables on the way to a page that are missing. -/
theorem slots_missing (hslots : slots cpu va ⊆ tables) (lo : ℕ) :
    ((Finset.Ioc lo (lacking cpu st va)).image fun n => (n, va / span n)) ⊆
      tables.filter fun s => s.1 ≤ lacking cpu st (s.2 * span s.1) := by
  intro s hs
  obtain ⟨n, hn, rfl⟩ := Finset.mem_image.mp hs
  obtain ⟨hlo, hle⟩ := Finset.mem_Ioc.mp hn
  have htop : n ≤ topLevel cpu := hle.trans (absent_le _ _ _ _)
  refine Finset.mem_filter.mpr ⟨hslots ?_, (le_lacking_slot (by omega)).mpr hle⟩
  exact Finset.mem_image_of_mem _ (Finset.mem_Icc.mpr ⟨by omega, htop⟩)

theorem card_slots_missing (va lo hi : ℕ) :
    ((Finset.Ioc lo hi).image fun n => (n, va / span n)).card = hi - lo := by
  rw [Finset.card_image_of_injective _ fun n n' h => (Prod.mk.inj h).1, Nat.card_Ioc]

theorem lacking_le_vacant (hslots : slots cpu va ⊆ tables) :
    lacking cpu st va ≤ vacant cpu st tables := by
  have hcard := Finset.card_le_card (@slots_missing cpu st va tables hslots 0)
  rwa [card_slots_missing, Nat.sub_zero] at hcard

/-- Tables taken from the kernel's fill gaps of the tree, and none is opened. -/
theorem mapMmioPage_vacant (T : PageTables cpu st size) (hcount : st.mmioPageTableCount ≤ 64)
    (hslots : slots cpu va ⊆ tables) :
    (mapMmioPage cpu st va pa).2.mmioPageTableCount +
        vacant cpu (mapMmioPage cpu st va pa).2 tables ≤
      st.mmioPageTableCount + vacant cpu st tables := by
  obtain ⟨spent, hspent, -, L, -⟩ := mapMmioPage_links T va pa hcount
  generalize mapMmioPage cpu st va pa = out at *
  have hself : lacking cpu out.2 va + spent = lacking cpu st va := L.spent_eq
  have hothers : ∀ a, lacking cpu out.2 a ≤ lacking cpu st a := fun a => L.others (index a)
  have hstill : (tables.filter fun s => s.1 ≤ lacking cpu out.2 (s.2 * span s.1)) ⊆
      tables.filter fun s => s.1 ≤ lacking cpu st (s.2 * span s.1) :=
    Finset.monotone_filter_right _ fun s _ h => h.trans (hothers _)
  have hdisjoint : Disjoint
      ((Finset.Ioc (lacking cpu out.2 va) (lacking cpu st va)).image fun n => (n, va / span n))
      (tables.filter fun s => s.1 ≤ lacking cpu out.2 (s.2 * span s.1)) := by
    refine Finset.disjoint_left.mpr fun s hs hs' => ?_
    obtain ⟨n, hn, rfl⟩ := Finset.mem_image.mp hs
    have hlt := (Finset.mem_Ioc.mp hn).1
    have hle := (le_lacking_slot (by omega)).mp (Finset.mem_filter.mp hs').2
    omega
  have hcard := Finset.card_le_card
    (Finset.union_subset (slots_missing hslots (lacking cpu out.2 va)) hstill)
  rw [Finset.card_union_of_disjoint hdisjoint, card_slots_missing] at hcard
  unfold vacant
  omega

theorem Blocked.before {spent : ℕ} {path : ℕ → Fin 512} (h : Blocked cpu st' va pa)
    (L : Links path (topLevel cpu) (rootTable cpu) spent (entries st.memory) (entries st'.memory)) :
    Blocked cpu st va pa := by
  unfold Blocked at h ⊢
  cases hend : ending (entries st'.memory) (index va) (topLevel cpu) (rootTable cpu) with
  | value k entry => rwa [L.values _ k entry hend, ← hend]
  | missing | bottom _ =>
    rw [hend] at h
    exact h.elim

/-- What calls do to the budget: the tables taken have filled gaps among `tables`, and no huge page
has come in the way. -/
structure Spends (cpu : Processor) (size : ℕ) (tables : Finset (ℕ × ℕ)) (st st' : PlatformState) :
    Prop where
  tree : PageTables cpu st' size
  same : SameConfiguration st st'
  count_le : st'.mmioPageTableCount ≤ 64
  vacant_le : st'.mmioPageTableCount + vacant cpu st' tables ≤
    st.mmioPageTableCount + vacant cpu st tables
  blocked : ∀ va pa, Blocked cpu st' va pa → Blocked cpu st va pa

theorem Spends.refl (T : PageTables cpu st size) (hcount : st.mmioPageTableCount ≤ 64) :
    Spends cpu size tables st st :=
  ⟨T, ⟨rfl, rfl, rfl, rfl⟩, hcount, le_refl _, fun _ _ h => h⟩

theorem Spends.trans {st'' : PlatformState} (S : Spends cpu size tables st st')
    (S' : Spends cpu size tables st' st'') : Spends cpu size tables st st'' :=
  ⟨S'.tree, S.same.trans S'.same, S'.count_le, S'.vacant_le.trans S.vacant_le,
    fun va pa h => S.blocked va pa (S'.blocked va pa h)⟩

theorem mapMmioPage_spends (T : PageTables cpu st size) (hcount : st.mmioPageTableCount ≤ 64)
    (hslots : slots cpu va ⊆ tables) : Spends cpu size tables st (mapMmioPage cpu st va pa).2 := by
  obtain ⟨spent, hspent, hmin, L, -⟩ := mapMmioPage_links T va pa hcount
  exact ⟨mapMmioPage_tables T va pa, mapMmioPage_same cpu st va pa, by omega,
    mapMmioPage_vacant T hcount hslots, fun _ _ h => h.before L⟩

theorem mapMmioPage_succeeds (T : PageTables cpu st size) (hslots : slots cpu va ⊆ tables)
    (hbudget : st.mmioPageTableCount + vacant cpu st tables ≤ 64)
    (hclear : ¬Blocked cpu st va pa) : (mapMmioPage cpu st va pa).1 = true := by
  obtain ⟨-, -, -, -, hiff⟩ := mapMmioPage_links T va pa (by omega)
  have hlacking : lacking cpu st va ≤ vacant cpu st tables := lacking_le_vacant hslots
  exact hiff.mpr ⟨hclear, by omega⟩

theorem mapAll_spends (T : PageTables cpu st size) (hcount : st.mmioPageTableCount ≤ 64)
    {pages : List ℕ} (hslots : ∀ page ∈ pages, slots cpu (add64 st.directMapOffset page) ⊆ tables)
    {calls calls' : List MmioCall} {mapped : Bool}
    (h : mapAll cpu pages st calls = (mapped, st', calls')) :
    Spends cpu size tables st st' ∧
      (st.mmioPageTableCount + vacant cpu st tables ≤ 64 →
        (∀ page ∈ pages, ¬Blocked cpu st (add64 st.directMapOffset page) page) →
        mapped = true) := by
  induction pages generalizing st calls with
  | nil =>
    cases h
    exact ⟨.refl T hcount, fun _ _ => rfl⟩
  | cons page pages ih =>
    have hpage := hslots page List.mem_cons_self
    have S : Spends cpu size tables st
        (mapMmioPage cpu st (add64 st.directMapOffset page) page).2 :=
      mapMmioPage_spends T hcount hpage
    have hsame := S.same.directMapOffset
    rw [mapAll] at h
    dsimp only at h
    split_ifs at h with hfailed
    · cases h
      refine ⟨S, fun hbudget hclear => ?_⟩
      rw [mapMmioPage_succeeds T hpage hbudget (hclear page List.mem_cons_self)] at hfailed
      cases hfailed
    · obtain ⟨S', hmapped⟩ := ih S.tree S.count_le (fun page' hpage' => by
        rw [hsame]
        exact hslots page' (List.mem_cons_of_mem _ hpage')) h
      refine ⟨S.trans S', fun hbudget hclear => hmapped (S.vacant_le.trans hbudget) ?_⟩
      intro page' hpage' hblocked
      rw [hsame] at hblocked
      exact hclear page' (List.mem_cons_of_mem _ hpage') (S.blocked _ _ hblocked)

end Budget

section Runs

/-- The tables on the way to the pages of a device. -/
def deviceSlots (cpu : Processor) (directMapOffset : ℕ) (device : Device) : Finset (ℕ × ℕ) :=
  (mmioPages device.physicalAddress device.length).toFinset.biUnion fun page =>
    slots cpu (add64 directMapOffset page)

/-- At most so many tables cover a range: at each level one for each full span and two more. -/
def tableBudget (cpu : Processor) (length : ℕ) : ℕ :=
  ∑ n ∈ Finset.Icc 1 (topLevel cpu), (length / span n + 2)

variable {cpu : Processor} {st st' : PlatformState} {size page : ℕ} {tables : Finset (ℕ × ℕ)}
  {device : Device}

theorem slots_device (hpage : page ∈ mmioPages device.physicalAddress device.length)
    (hslots : deviceSlots cpu st.directMapOffset device ⊆ tables) :
    slots cpu (add64 st.directMapOffset page) ⊆ tables := fun _ hs =>
  hslots (Finset.mem_biUnion.mpr ⟨page, List.mem_toFinset.mpr hpage, hs⟩)

theorem card_deviceSlots (U : UpperHalf cpu st.directMapOffset)
    (hreach : InReach st.directMapOffset device) (hlength : device.length ≠ 0) :
    (deviceSlots cpu st.directMapOffset device).card ≤ tableBudget cpu device.length := by
  have hroom := hreach.room
  have haligned := U.aligned
  generalize hstart : st.directMapOffset + device.physicalAddress = start at *
  have hsub : deviceSlots cpu st.directMapOffset device ⊆
      (Finset.Icc 1 (topLevel cpu)).biUnion fun n =>
        (Finset.Icc (start / span n) ((start + device.length - 1) / span n)).image (n, ·) := by
    intro s hs
    obtain ⟨page, hpage, hs⟩ := Finset.mem_biUnion.mp hs
    obtain ⟨n, hn, rfl⟩ := Finset.mem_image.mp hs
    obtain ⟨hpage', byte, hlo, hhi, hle, hlt⟩ :=
      (hreach.pages hlength page).mp (List.mem_toFinset.mp hpage)
    rw [add64_eq (by omega)]
    refine Finset.mem_biUnion.mpr ⟨n, hn, Finset.mem_image_of_mem _ (Finset.mem_Icc.mpr ⟨?_, ?_⟩)⟩
    · -- the page may begin before the device, but the first of its tables does not
      have hfirst := (page_div_span (Nat.mul_mod_left (start / 4096) 4096)
        (Nat.mod_lt start (by decide)) n).1
      rw [Nat.div_add_mod'] at hfirst
      rw [hfirst]
      exact Nat.div_le_div_right (by omega)
    · exact Nat.div_le_div_right (by omega)
  refine (Finset.card_le_card hsub).trans (Finset.card_biUnion_le.trans (Finset.sum_le_sum ?_))
  intro n _
  refine Finset.card_image_le.trans ?_
  have hpos : 0 < span n := Nat.two_pow_pos _
  have hsum : (start + device.length - 1) / span n ≤ start / span n + device.length / span n + 1 := by
    have hle : (start + device.length - 1) / span n ≤ (start + device.length) / span n :=
      Nat.div_le_div_right (Nat.sub_le _ _)
    exact hle.trans (Nat.add_div_le_div_add_div_add_one _ _ _)
  rw [Nat.card_Icc, Nat.sub_le_iff_le_add]
  calc (start + device.length - 1) / span n + 1
      ≤ start / span n + device.length / span n + 1 + 1 := Nat.succ_le_succ hsum
    _ = device.length / span n + 2 + start / span n := by ring

theorem deviceStep_spends (T : PageTables cpu st size) (hcount : st.mmioPageTableCount ≤ 64)
    {e : Device × ℕ} (hreach : InReach st.directMapOffset e.1)
    (hslots : e.1.length ≠ 0 → deviceSlots cpu st.directMapOffset e.1 ⊆ tables)
    (h : DeviceStep cpu st e st') :
    Spends cpu size tables st st' ∧
      (st.mmioPageTableCount + vacant cpu st tables ≤ 64 →
        ¬Refused st e.1.physicalAddress e.1.length →
        (∀ page, Touches e.1.physicalAddress e.1.length page →
          ¬Blocked cpu st (st.directMapOffset + page) page) →
        e.2 = st.directMapOffset + e.1.physicalAddress) := by
  obtain ⟨hrefused, -, rfl⟩ | ⟨hlength, mapped, calls, hall, hpointer⟩ := deviceStep_cases hreach h
  · exact ⟨.refl T hcount, fun _ haccepted => absurd hrefused haccepted⟩
  have hpages := hreach.pages hlength
  obtain ⟨S, hmapped⟩ := mapAll_spends T hcount
    (fun page hpage => slots_device hpage (hslots hlength)) hall
  refine ⟨S, fun hbudget _ hclear => ?_⟩
  have htrue := hmapped hbudget fun page hpage => by
    have htouched := (hpages page).mp hpage
    rw [add64_eq (hreach.pageInReach htouched).room]
    exact hclear page htouched
  rw [hpointer, if_pos htrue, S.same.directMapOffset]
  exact hreach.pointer_eq hlength

theorem run_spends {es : List (Device × ℕ)} (hrun : Run (DeviceStep cpu) st es st')
    (T : PageTables cpu st size) (hcount : st.mmioPageTableCount ≤ 64)
    (hreach : ∀ e ∈ es, InReach st.directMapOffset e.1)
    (hslots : ∀ e ∈ es, e.1.length ≠ 0 → deviceSlots cpu st.directMapOffset e.1 ⊆ tables) :
    Spends cpu size tables st st' ∧
      (st.mmioPageTableCount + vacant cpu st tables ≤ 64 →
        ∀ e ∈ es, ¬Refused st e.1.physicalAddress e.1.length →
          (∀ page, Touches e.1.physicalAddress e.1.length page →
            ¬Blocked cpu st (st.directMapOffset + page) page) →
          e.2 = st.directMapOffset + e.1.physicalAddress) := by
  induction hrun with
  | nil => exact ⟨.refl T hcount, fun _ _ he => absurd he List.not_mem_nil⟩
  | @cons st st₁ st' e es head _ ih =>
    obtain ⟨S, hfirst⟩ := deviceStep_spends T hcount (hreach e List.mem_cons_self)
      (hslots e List.mem_cons_self) head
    have hsame := S.same.directMapOffset
    obtain ⟨S', hlater⟩ := ih S.tree S.count_le
      (fun e' he' => by rw [hsame]; exact hreach e' (List.mem_cons_of_mem _ he'))
      fun e' he' => by rw [hsame]; exact hslots e' (List.mem_cons_of_mem _ he')
    refine ⟨S.trans S', fun hbudget e' he' haccepted hclear => ?_⟩
    rcases List.mem_cons.mp he' with rfl | he'
    · exact hfirst hbudget haccepted hclear
    · rw [hlater (S.vacant_le.trans hbudget) e' he' ?_ fun page hpage hblocked => ?_, hsame]
      · unfold Refused at haccepted ⊢
        rwa [hsame, S.same.executableVirtualBase]
      · rw [hsame] at hblocked
        exact hclear page hpage (S.blocked _ _ hblocked)

/-- The devices asked for, each counted once, bound the tables that are taken. Where the bound is
within the 64 tables of the kernel every device is mapped, unless a huge page is in its way. -/
theorem run_within_budget {es : List (Device × ℕ)} (hrun : Run (DeviceStep cpu) st es st')
    (T : PageTables cpu st size) (U : UpperHalf cpu st.directMapOffset)
    (hcount : st.mmioPageTableCount ≤ 64) (hreach : ∀ e ∈ es, InReach st.directMapOffset e.1)
    {needed : ℕ}
    (hneeded : ∑ device ∈ (es.map (·.1)).toFinset, tableBudget cpu device.length ≤ needed) :
    st'.mmioPageTableCount ≤ 64 ∧ st'.mmioPageTableCount ≤ st.mmioPageTableCount + needed ∧
      (st.mmioPageTableCount + needed ≤ 64 →
        ∀ e ∈ es, ¬Refused st e.1.physicalAddress e.1.length →
          (∀ page, Touches e.1.physicalAddress e.1.length page →
            ¬Blocked cpu st (st.directMapOffset + page) page) →
          e.2 = st.directMapOffset + e.1.physicalAddress ∧ ∀ k < e.1.length,
            PageWalk.translate cpu st'.memory (e.2 + k) = some (e.1.physicalAddress + k)) := by
  have hslots : ∀ e ∈ es, e.1.length ≠ 0 → deviceSlots cpu st.directMapOffset e.1 ⊆
      ((es.map (·.1)).toFinset.filter (·.length ≠ 0)).biUnion (deviceSlots cpu st.directMapOffset) :=
    fun e he hlength => Finset.subset_biUnion_of_mem (deviceSlots cpu st.directMapOffset)
      (Finset.mem_filter.mpr ⟨List.mem_toFinset.mpr (List.mem_map_of_mem he), hlength⟩)
  obtain ⟨S, hmapped⟩ := run_spends hrun T hcount hreach hslots
  have hvacant : vacant cpu st (((es.map (·.1)).toFinset.filter (·.length ≠ 0)).biUnion
      (deviceSlots cpu st.directMapOffset)) ≤ needed := by
    have hdevices : ∀ device ∈ (es.map (·.1)).toFinset.filter (·.length ≠ 0),
        (deviceSlots cpu st.directMapOffset device).card ≤ tableBudget cpu device.length := by
      intro device hdevice
      obtain ⟨hmem, hlength⟩ := Finset.mem_filter.mp hdevice
      obtain ⟨e, he, rfl⟩ := List.mem_map.mp (List.mem_toFinset.mp hmem)
      exact card_deviceSlots U (hreach e he) hlength
    calc vacant cpu st _
        ≤ _ := Finset.card_filter_le _ _
      _ ≤ _ := Finset.card_biUnion_le
      _ ≤ _ := Finset.sum_le_sum hdevices
      _ ≤ _ := Finset.sum_le_sum_of_subset (Finset.filter_subset _ _)
      _ ≤ needed := hneeded
  have hspent := S.vacant_le
  refine ⟨S.count_le, by omega, fun hbudget e he haccepted hclear => ?_⟩
  have hpointer := hmapped (by omega) e he haccepted hclear
  have hnonzero : e.2 ≠ 0 := by
    have hoffset := U.offset_pos
    omega
  obtain ⟨K, hdevices⟩ := run_keeps hrun T U hreach
  refine ⟨hpointer, fun k hk => (hdevices e he hnonzero).translate ?_ hk⟩
  rw [K.same.directMapOffset]
  exact U.aligned

theorem entries_blank (n t : ℕ) (i : Fin 512) : entries freshPlatform.memory n t i = .empty := by
  have hblank := freshPlatform_blank t n i
  rw [tables_eq, mapContents] at hblank
  cases h : entries freshPlatform.memory n t i <;> rw [h] at hblank <;> first | rfl | cases hblank

/-- Two interrupt controllers in a fresh address space: at most twelve tables. -/
theorem run_within_budget_fresh : ∃ p q st', Run (DeviceStep freshProcessor) freshPlatform
      [(⟨0xfee00000, 0x1000⟩, p), (⟨0xfec00000, 0x1000⟩, q)] st' ∧
    PageWalk.translate freshProcessor st'.memory (freshPlatform.directMapOffset + 0xfee000b0) =
      some 0xfee000b0 ∧
    PageWalk.translate freshProcessor st'.memory (freshPlatform.directMapOffset + 0xfec00010) =
      some 0xfec00010 ∧ st'.mmioPageTableCount ≤ 12 := by
  obtain ⟨p, st₁, hfirst⟩ :=
    deviceStep_exists freshProcessor freshPlatform ⟨0xfee00000, 0x1000⟩ (by decide)
  obtain ⟨q, st', hsecond⟩ :=
    deviceStep_exists freshProcessor st₁ ⟨0xfec00000, 0x1000⟩ (by decide)
  have hrun : Run (DeviceStep freshProcessor) freshPlatform
      [(⟨0xfee00000, 0x1000⟩, p), (⟨0xfec00000, 0x1000⟩, q)] st' :=
    .cons hfirst (.cons hsecond (.nil _))
  obtain ⟨-, hcount, hmapped⟩ := run_within_budget hrun freshPlatform_tables
    ⟨by decide, by decide⟩ (by decide) (fun e he => by
      rcases List.mem_pair.mp he with rfl | rfl <;> exact inReach_fresh (by decide))
    (show ∑ device ∈ ([⟨0xfee00000, 0x1000⟩, ⟨0xfec00000, 0x1000⟩] : List Device).toFinset,
      tableBudget freshProcessor device.length ≤ 12 by decide)
  have hclear : ∀ va pa, ¬Blocked freshProcessor freshPlatform va pa := by
    intro va pa
    have hmissing : ending (entries freshPlatform.memory) (index va) (topLevel freshProcessor)
        (rootTable freshProcessor) = .missing :=
      ending_empty (n := 2) (entries_blank _ _ _)
    unfold Blocked
    rw [hmissing]
    exact fun h => h
  obtain ⟨hp, hfirst'⟩ := hmapped (by decide) _ List.mem_cons_self
    (show ¬Refused freshPlatform 0xfee00000 0x1000 by decide) fun _ _ => hclear _ _
  obtain ⟨hq, hsecond'⟩ := hmapped (by decide) _ (List.mem_cons_of_mem _ List.mem_cons_self)
    (show ¬Refused freshPlatform 0xfec00000 0x1000 by decide) fun _ _ => hclear _ _
  have hregister := hfirst' 0xb0 (show 0xb0 < 0x1000 by decide)
  have hregister' := hsecond' 0x10 (show 0x10 < 0x1000 by decide)
  rw [hp, Nat.add_assoc] at hregister
  rw [hq, Nat.add_assoc] at hregister'
  exact ⟨p, q, st', hrun, hregister, hregister', by simpa [freshPlatform] using hcount⟩

end Runs

end JsOs.TableBudget

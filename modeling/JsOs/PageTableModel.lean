import JsOs.ByteMemory
import JsOs.MachineWords

/-!
# Mapping a device page

`map_mmio_page` of the kernel over physical memory. The processor gives the two control registers
and resolves the addresses of the kernel's own pointers; the flush of the translation cache is left
out.
-/

namespace JsOs.PageTableModel

open CountedLoops ByteMemory MachineWords

def pageSize : ℕ := 4096
def pageAddressMask : ℕ := 0x000ffffffffff000
def pagePresent : ℕ := 0x001
def pageWrite : ℕ := 0x002
def pageWriteThrough : ℕ := 0x008
def pageCacheDisable : ℕ := 0x010
def pageHuge : ℕ := 0x080
def mmioTableCount : ℕ := 64

structure Processor where
  cr3 : ℕ
  cr4 : ℕ
  /-- The physical address behind a pointer. -/
  resolve : ℕ → ℕ

/-- Physical memory and the variables of the file; `mmioPageTables` is where the linker put the
array. -/
structure PlatformState where
  memory : Memory
  directMapOffset : ℕ
  executablePhysicalBase : ℕ
  executableVirtualBase : ℕ
  mmioPageTables : ℕ
  mmioPageTableCount : ℕ

section Mapping

variable (cpu : Processor) (st : PlatformState)

def readEntry (table index : ℕ) : ℕ := load st.memory (cpu.resolve (add64 table (8 * index))) 8

def writeEntry (table index entry : ℕ) : PlatformState :=
  { st with memory := store st.memory (cpu.resolve (add64 table (8 * index))) 8 entry }

def tablePhysicalAddress (table : ℕ) : ℕ :=
  add64 (sub64 table st.executableVirtualBase) st.executablePhysicalBase

/-- The call `memset(table, 0, PAGE_SIZE)`. -/
@[irreducible] def zeroPage (table : ℕ) : PlatformState :=
  { st with
    memory := forRange 0 pageSize (fun i m => storeByte m (cpu.resolve (add64 table i)) 0) st.memory }

@[simp] theorem zeroPage_directMapOffset (table : ℕ) :
    (zeroPage cpu st table).directMapOffset = st.directMapOffset := by
  unfold zeroPage
  rfl

@[simp] theorem zeroPage_mmioPageTables (table : ℕ) :
    (zeroPage cpu st table).mmioPageTables = st.mmioPageTables := by
  unfold zeroPage
  rfl

@[simp] theorem zeroPage_mmioPageTableCount (table : ℕ) :
    (zeroPage cpu st table).mmioPageTableCount = st.mmioPageTableCount := by
  unfold zeroPage
  rfl

@[simp] theorem tablePhysicalAddress_zeroPage (table p : ℕ) :
    tablePhysicalAddress (zeroPage cpu st table) p = tablePhysicalAddress st p := by
  unfold tablePhysicalAddress zeroPage
  rfl

@[simp] theorem tablePhysicalAddress_writeEntry (table index entry p : ℕ) :
    tablePhysicalAddress (writeEntry cpu st table index entry) p = tablePhysicalAddress st p := rfl

def allocatePageTable : Option (ℕ × PlatformState) :=
  if st.mmioPageTableCount ≥ mmioTableCount then none
  else
    let table := add64 st.mmioPageTables (pageSize * st.mmioPageTableCount)
    some (table, zeroPage cpu { st with mmioPageTableCount := st.mmioPageTableCount + 1 } table)

/-- What a present huge entry maps the address to. -/
def hugeMapped (entry shift virtualAddress : ℕ) : ℕ :=
  let pageSize := 1 <<< shift
  (entry &&& not64 (pageSize - 1)) ||| (virtualAddress &&& (pageSize - 1))

/-- The loop of `map_mmio_page` from `level = n + 1` on, and what follows it. -/
def mapLevels (virtualAddress physicalAddress : ℕ) : ℕ → PlatformState → ℕ → Bool × PlatformState
  | 0, st, table =>
    let index := (virtualAddress >>> 12) &&& 0x1ff
    (true, writeEntry cpu st table index
      (physicalAddress ||| pagePresent ||| pageWrite ||| pageWriteThrough ||| pageCacheDisable))
  | n + 1, st, table =>
    let level := n + 2
    let shift := 12 + (level - 1) * 9
    let index := (virtualAddress >>> shift) &&& 0x1ff
    let entry := readEntry cpu st table index
    if entry &&& pagePresent ≠ 0 then
      if entry &&& pageHuge ≠ 0 then
        (hugeMapped entry shift virtualAddress &&& not64 (pageSize - 1) == physicalAddress, st)
      else
        mapLevels virtualAddress physicalAddress n st
          (add64 st.directMapOffset (entry &&& pageAddressMask))
    else match allocatePageTable cpu st with
      | none => (false, st)
      | some (next, st) =>
        mapLevels virtualAddress physicalAddress n
          (writeEntry cpu st table index (tablePhysicalAddress st next ||| pagePresent ||| pageWrite))
          next

def pagingLevels : ℕ := if cpu.cr4 &&& (1 <<< 12) ≠ 0 then 5 else 4

def mapMmioPage (virtualAddress physicalAddress : ℕ) : Bool × PlatformState :=
  mapLevels cpu virtualAddress physicalAddress (pagingLevels cpu - 1) st
    (add64 st.directMapOffset (cpu.cr3 &&& pageAddressMask))

end Mapping

end JsOs.PageTableModel

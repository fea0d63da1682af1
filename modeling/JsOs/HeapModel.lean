import JsOs.ByteMemory
import JsOs.MachineWords

/-!
# The kernel heap

`heap.c` keeps one doubly linked list of blocks, in address order, inside the region given to
`heap_init`. Each block is a 32-byte header followed by its payload. The headers live in the
same byte memory as the payloads, so a header written by `split_block` really overwrites payload
bytes and a client write could really overwrite a header.
-/

namespace JsOs.HeapModel

open ByteMemory MachineWords

def heapAlignment : ℕ := 16
def heapMagic : ℕ := 0x4a534f53

/-- `sizeof(HeapBlock)`: `size`, `previous` and `next` at 0, 8 and 16, `magic` at 24, `free` at 28. -/
def sizeofHeapBlock : ℕ := 32

/-- `value & ~(HEAP_ALIGNMENT - 1)`. -/
def alignDown (value : ℕ) : ℕ := value / heapAlignment * heapAlignment

def headerSize : ℕ := alignDown (sizeofHeapBlock + heapAlignment - 1)

@[simp] theorem heapAlignment_eq : heapAlignment = 16 := rfl

@[simp] theorem headerSize_eq : headerSize = 32 := by decide

/-- The file-scope variables of `heap.c` together with the memory they point into. `wrapped` is
not in the source: it records that some sum or difference of block sizes has left the range of
`size_t`. -/
structure Heap where
  memory : Memory
  heapBegin : ℕ
  heapEnd : ℕ
  firstBlock : ℕ
  allocationCount : ℕ
  wrapped : Bool

/-- The fields of one `HeapBlock`. -/
@[ext] structure Header where
  size : ℕ
  previous : ℕ
  next : ℕ
  magic : ℕ
  free : Bool
  deriving DecidableEq, Repr

def header (m : Memory) (block : ℕ) : Header where
  size := load m block 8
  previous := load m (block + 8) 8
  next := load m (block + 16) 8
  magic := load m (block + 24) 4
  free := load m (block + 28) 1 != 0

namespace Heap

def size (h : Heap) (block : ℕ) : ℕ := (header h.memory block).size
def previous (h : Heap) (block : ℕ) : ℕ := (header h.memory block).previous
def next (h : Heap) (block : ℕ) : ℕ := (header h.memory block).next
def magic (h : Heap) (block : ℕ) : ℕ := (header h.memory block).magic
def free (h : Heap) (block : ℕ) : Bool := (header h.memory block).free

def setSize (h : Heap) (block v : ℕ) : Heap := { h with memory := store h.memory block 8 v }
def setPrevious (h : Heap) (block v : ℕ) : Heap :=
  { h with memory := store h.memory (block + 8) 8 v }
def setNext (h : Heap) (block v : ℕ) : Heap :=
  { h with memory := store h.memory (block + 16) 8 v }
def setMagic (h : Heap) (block v : ℕ) : Heap :=
  { h with memory := store h.memory (block + 24) 4 v }
def setFree (h : Heap) (block : ℕ) (v : Bool) : Heap :=
  { h with memory := store h.memory (block + 28) 1 v.toNat }

/-- Record whether a size expression with this exact value fits in `size_t`. -/
def noteSize (h : Heap) (exact : ℤ) : Heap :=
  { h with wrapped := h.wrapped || !decide (0 ≤ exact ∧ exact < 2 ^ 64) }

end Heap

/-- The state before `heap_init`. -/
def Heap.zero (m : Memory) : Heap := ⟨m, 0, 0, 0, 0, false⟩

/-- The sum `value + HEAP_ALIGNMENT` is formed before `1` is taken away again. -/
def alignUp (value : ℕ) : ℕ :=
  if value > sizeMax - (heapAlignment - 1) then 0
  else alignDown (sub64 (add64 value heapAlignment) 1)

def blockPayload (block : ℕ) : ℕ := block + headerSize

/-- Null pointers are `0`. -/
def payloadBlock (h : Heap) (pointer : ℕ) : ℕ :=
  if pointer = 0 ∨ h.heapBegin = 0 then 0
  else if pointer < h.heapBegin + headerSize ∨ pointer ≥ h.heapEnd then 0
  else
    let block := pointer - headerSize
    if block < h.heapBegin ∨ h.magic block ≠ heapMagic then 0 else block

/-- `-1` leaves the heap as it was. -/
def heapInit (h : Heap) (memory size : ℕ) : ℤ × Heap :=
  let raw := memory
  let aligned := alignDown (sub64 (add64 raw heapAlignment) 1)
  let adjustment := sub64 aligned raw
  if size ≤ add64 (add64 adjustment headerSize) heapAlignment then (-1, h)
  else
    let size := sub64 size adjustment
    let size := alignDown size
    let h := { h with heapBegin := aligned, heapEnd := aligned + size, firstBlock := aligned }
    let h := h.setSize h.firstBlock (sub64 size headerSize)
    let h := h.setPrevious h.firstBlock 0
    let h := h.setNext h.firstBlock 0
    let h := h.setMagic h.firstBlock heapMagic
    let h := h.setFree h.firstBlock true
    (0, { h with allocationCount := 0 })

def splitBlock (h : Heap) (block size : ℕ) : Heap :=
  let h := h.noteSize (size + headerSize + heapAlignment)
  if h.size block < add64 (add64 size headerSize) heapAlignment then h
  else
    let remainder := blockPayload block + size
    let h := h.noteSize (h.size block - size - headerSize)
    let h := h.setSize remainder (sub64 (sub64 (h.size block) size) headerSize)
    let h := h.setPrevious remainder block
    let h := h.setNext remainder (h.next block)
    let h := h.setMagic remainder heapMagic
    let h := h.setFree remainder true
    let h := if h.next remainder ≠ 0 then h.setPrevious (h.next remainder) remainder else h
    let h := h.setNext block remainder
    h.setSize block size

/-- The block list is not written while it is walked, so a walk that takes more than `2 ^ 64`
steps has met some address twice and never ends. Out of fuel therefore means divergence. -/
def walkFuel : ℕ := 2 ^ 64

/-- The `for` loop of `heap_allocate`, from `block` on. -/
def allocateFrom (h : Heap) (size : ℕ) : ℕ → ℕ → Option (ℕ × Heap)
  | 0, _ => none
  | fuel + 1, block =>
    if block = 0 then some (0, h)
    else if !h.free block || decide (h.size block < size) then
      allocateFrom h size fuel (h.next block)
    else
      let h := splitBlock h block size
      let h := h.setFree block false
      let h := { h with allocationCount := add64 h.allocationCount 1 }
      some (blockPayload block, h)

def heapAllocate (h : Heap) (size : ℕ) : Option (ℕ × Heap) :=
  if size = 0 ∨ h.firstBlock = 0 then some (0, h)
  else
    let size := alignUp size
    if size = 0 then some (0, h)
    else allocateFrom h size walkFuel h.firstBlock

def heapCallocate (h : Heap) (count size : ℕ) : Option (ℕ × Heap) :=
  if count ≠ 0 ∧ size > sizeMax / count then some (0, h)
  else
    let total := mul64 count size
    (heapAllocate h total).map fun (pointer, h) =>
      if pointer ≠ 0 then (pointer, { h with memory := memset h.memory pointer 0 total })
      else (pointer, h)

def mergeWithNext (h : Heap) (block : ℕ) : Heap :=
  let next := h.next block
  if next = 0 ∨ h.free next = false ∨ h.magic next ≠ heapMagic then h
  else
    let h := h.noteSize (h.size block + headerSize + h.size next)
    let h := h.setSize block (add64 (h.size block) (add64 headerSize (h.size next)))
    let h := h.setNext block (h.next next)
    let h := if h.next block ≠ 0 then h.setPrevious (h.next block) block else h
    h.setMagic next 0

def heapRelease (h : Heap) (pointer : ℕ) : Heap :=
  let block := payloadBlock h pointer
  if block = 0 ∨ h.free block = true then h
  else
    let h := h.setFree block true
    let h := if h.allocationCount ≠ 0 then
        { h with allocationCount := sub64 h.allocationCount 1 } else h
    let h := mergeWithNext h block
    if h.previous block ≠ 0 ∧ h.free (h.previous block) = true then
      mergeWithNext h (h.previous block)
    else h

def heapReallocate (h : Heap) (pointer size : ℕ) : Option (ℕ × Heap) :=
  if pointer = 0 then heapAllocate h size
  else if size = 0 then some (0, heapRelease h pointer)
  else
    let block := payloadBlock h pointer
    if block = 0 ∨ h.free block = true then some (0, h)
    else
      let alignedSize := alignUp size
      if alignedSize = 0 then some (0, h)
      else if h.size block ≥ alignedSize then some (pointer, splitBlock h block alignedSize)
      else
        let next := h.next block
        let fits := add64 (add64 (h.size block) headerSize) (h.size next)
        -- the sum is only evaluated when the next block exists and is free
        let h := if next ≠ 0 ∧ h.free next = true then
            h.noteSize (h.size block + headerSize + h.size next) else h
        if next ≠ 0 ∧ h.free next = true ∧ fits ≥ alignedSize then
          some (pointer, splitBlock (mergeWithNext h block) block alignedSize)
        else
          (heapAllocate h size).map fun (replacement, h) =>
            if replacement = 0 then (0, h)
            else
              let count := if h.size block < size then h.size block else size
              let h := { h with memory := memcpy h.memory replacement pointer count }
              (replacement, heapRelease h pointer)

def heapUsableSize (h : Heap) (pointer : ℕ) : ℕ :=
  let block := payloadBlock h pointer
  if block = 0 ∨ h.free block = true then 0 else h.size block

structure HeapStats where
  capacity : ℕ
  used : ℕ
  free : ℕ
  largestFree : ℕ
  allocations : ℕ
  deriving DecidableEq, Repr

/-- The `for` loop of `heap_stats`, from `block` on. -/
def statsFrom (h : Heap) : ℕ → ℕ → HeapStats → Option HeapStats
  | 0, _, _ => none
  | fuel + 1, block, stats =>
    if block = 0 then some stats
    else if h.free block then
      let stats := { stats with free := add64 stats.free (h.size block) }
      statsFrom h fuel (h.next block)
        (if h.size block > stats.largestFree then { stats with largestFree := h.size block }
          else stats)
    else statsFrom h fuel (h.next block) { stats with used := add64 stats.used (h.size block) }

def heapStats (h : Heap) : Option HeapStats :=
  if h.heapBegin = 0 then some ⟨0, 0, 0, 0, 0⟩
  else statsFrom h walkFuel h.firstBlock
    ⟨sub64 h.heapEnd h.heapBegin, 0, 0, 0, h.allocationCount⟩

end JsOs.HeapModel

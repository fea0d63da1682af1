import JsOs.ByteMemory
import JsOs.MachineWords

/-!
# `qsort`

The elements lie side by side in byte memory. The comparison function is passed pointers and may
look at the bytes of both elements. Next to the memory the state keeps, for the record, every
element index whose address has been passed to `compare` or `swap_elements`.
-/

namespace JsOs.QsortModel

open CountedLoops ByteMemory MachineWords

/-- What `compare` returns for two elements with these bytes. -/
abbrev Comparator := List UInt8 → List UInt8 → ℤ

structure SortState where
  memory : Memory
  touched : List ℕ

def swapElements (m : Memory) (a b size : ℕ) : Memory :=
  forRange 0 size (fun i m =>
    let temporary := m (a + i)
    let m := storeByte m (a + i) (m (b + i))
    storeByte m (b + i) temporary) m

section Elements

variable (compare : Comparator) (base size : ℕ)

/-- `base + i * size`. -/
def element (i : ℕ) : ℕ := add64 base (mul64 i size)

def item (m : Memory) (i : ℕ) : List UInt8 := readBytes m (element base size i) size

/-- `compare(base + i * size, base + j * size)`. -/
def compareAt (s : SortState) (i j : ℕ) : ℤ × SortState :=
  (compare (item base size s.memory i) (item base size s.memory j),
    { s with touched := i :: j :: s.touched })

/-- `swap_elements(base + i * size, base + j * size, size)`. -/
def swapAt (s : SortState) (i j : ℕ) : SortState where
  memory := swapElements s.memory (element base size i) (element base size j) size
  touched := i :: j :: s.touched

/-- `root` at least doubles in each round and stays below `2 ^ 63`, so this is fuel enough. -/
def siftFuel : ℕ := 2 ^ 64

/-- The first `if` of the loop of `sift_down`. -/
def greaterChild (last child : ℕ) (s : SortState) : ℕ × SortState :=
  if child < last then
    let (order, s) := compareAt compare base size s child (add64 child 1)
    (if order < 0 then add64 child 1 else child, s)
  else (child, s)

/-- The `while` loop of `sift_down`, from `root` on; `last` is its parameter `end`, the last
index of the heap. -/
def siftDownFrom (last : ℕ) : ℕ → ℕ → SortState → Option SortState
  | 0, _, _ => none
  | fuel + 1, root, s =>
    if root ≤ sub64 last 1 / 2 then
      let (child, s) := greaterChild compare base size last (add64 (mul64 root 2) 1) s
      let (order, s) := compareAt compare base size s root child
      if order ≥ 0 then some s
      else siftDownFrom last fuel child (swapAt base size s root child)
    else some s

def siftDown (start last : ℕ) (s : SortState) : Option SortState :=
  siftDownFrom compare base size last siftFuel start s

/-- The first loop of `qsort`. -/
def heapify (count : ℕ) (s : SortState) : Option SortState :=
  countDownM (fun start => siftDown compare base size (start - 1) (sub64 count 1)) (count / 2) s

/-- The body of the second loop of `qsort`; `last` is its variable `end`. -/
def extractRound (last : ℕ) (s : SortState) : Option SortState :=
  siftDown compare base size 0 (last - 1) (swapAt base size s 0 last)

/-- The second loop of `qsort`. -/
def extract (count : ℕ) (s : SortState) : Option SortState :=
  countDownM (extractRound compare base size) (sub64 count 1) s

end Elements

/-- A null comparison function is `none`. -/
def qsort (basePointer count size : ℕ) (compare : Option Comparator) (m : Memory) :
    Option SortState :=
  match compare with
  | none => some ⟨m, []⟩
  | some compare =>
    if basePointer = 0 ∨ count < 2 ∨ size = 0 then some ⟨m, []⟩
    else (heapify compare basePointer size count ⟨m, []⟩).bind (extract compare basePointer size count)

end JsOs.QsortModel

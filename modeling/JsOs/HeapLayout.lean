import JsOs.HeapModel
import Mathlib.Data.List.Basic

/-!
# Layouts of the heap

A layout is the list of blocks, in address order, that the linked headers in memory stand for.
`Tiles` says that the blocks fill a region without gaps, `Linked` that the header of each block
holds its size, its flag, the magic number and the addresses of its two neighbours.
-/

namespace JsOs.HeapLayout

open ByteMemory MachineWords HeapModel

structure Block where
  address : ℕ
  size : ℕ
  free : Bool
  deriving DecidableEq, Repr

/-- The blocks are adjacent, start at `a` and end at `e`; sizes are positive multiples of 16. -/
def Tiles (a e : ℕ) : List Block → Prop
  | [] => a = e
  | b :: bs => b.address = a ∧ 16 ∣ b.size ∧ 16 ≤ b.size ∧ Tiles (a + 32 + b.size) e bs

/-- Where the blocks begin, when something at `next` follows them. -/
def headAddress (next : ℕ) : List Block → ℕ
  | [] => next
  | b :: _ => b.address

/-- The address of the last block, when the block at `previous` precedes them. -/
def lastAddress : ℕ → List Block → ℕ
  | previous, [] => previous
  | _, b :: bs => lastAddress b.address bs

/-- The headers of the blocks, when the blocks at `previous` and `next` surround them. -/
def Linked (m : Memory) : ℕ → ℕ → List Block → Prop
  | _, _, [] => True
  | previous, next, b :: bs =>
    header m b.address = ⟨b.size, previous, headAddress next bs, heapMagic, b.free⟩ ∧
      Linked m b.address next bs

@[simp] theorem headAddress_nil (n : ℕ) : headAddress n [] = n := rfl
@[simp] theorem headAddress_cons (n : ℕ) (b : Block) (bs : List Block) :
    headAddress n (b :: bs) = b.address := rfl
@[simp] theorem lastAddress_nil (p : ℕ) : lastAddress p [] = p := rfl
@[simp] theorem lastAddress_cons (p : ℕ) (b : Block) (bs : List Block) :
    lastAddress p (b :: bs) = lastAddress b.address bs := rfl

theorem headAddress_append (n : ℕ) (xs ys : List Block) :
    headAddress n (xs ++ ys) = headAddress (headAddress n ys) xs := by
  cases xs <;> rfl

section Tiles

variable {a c e : ℕ} {b : Block} {bs xs ys : List Block}

theorem tiles_append : Tiles a e (xs ++ ys) ↔ ∃ c, Tiles a c xs ∧ Tiles c e ys := by
  induction xs generalizing a with
  | nil => simp [Tiles]
  | cons x xs ih =>
    simp only [List.cons_append, Tiles, ih]
    constructor
    · rintro ⟨ha, hd, hs, c, hxs, hys⟩
      exact ⟨c, ⟨ha, hd, hs, hxs⟩, hys⟩
    · rintro ⟨c, ⟨ha, hd, hs, hxs⟩, hys⟩
      exact ⟨ha, hd, hs, c, hxs, hys⟩

theorem Tiles.le (h : Tiles a e bs) : a ≤ e := by
  induction bs generalizing a with
  | nil => exact Nat.le_of_eq h
  | cons b bs ih =>
    have := ih h.2.2.2
    omega

theorem Tiles.middle (h : Tiles a e (xs ++ b :: ys)) :
    Tiles a b.address xs ∧ 16 ∣ b.size ∧ 16 ≤ b.size ∧ Tiles (b.address + 32 + b.size) e ys := by
  obtain ⟨c, hxs, hb, hd, hs, hys⟩ := tiles_append.mp h
  subst hb
  exact ⟨hxs, hd, hs, hys⟩

theorem Tiles.mem (h : Tiles a e bs) (hb : b ∈ bs) :
    a ≤ b.address ∧ b.address + 32 + b.size ≤ e ∧ 16 ∣ b.size ∧ 16 ≤ b.size := by
  obtain ⟨xs, ys, rfl⟩ := List.append_of_mem hb
  obtain ⟨hxs, hd, hs, hys⟩ := h.middle
  exact ⟨hxs.le, hys.le, hd, hs⟩

theorem Tiles.aligned (h : Tiles a e bs) (ha : 16 ∣ a) : 16 ∣ e ∧ ∀ b ∈ bs, 16 ∣ b.address := by
  induction bs generalizing a with
  | nil => exact ⟨h ▸ ha, by simp⟩
  | cons b bs ih =>
    obtain ⟨hb, hd, hs, htail⟩ := h
    obtain ⟨he, hmem⟩ := ih htail (by omega)
    refine ⟨he, fun c hc => ?_⟩
    rcases List.mem_cons.mp hc with rfl | hc
    · exact hb ▸ ha
    · exact hmem c hc

theorem Tiles.headAddress_eq (h : Tiles a e bs) (hne : bs ≠ []) (n : ℕ) : headAddress n bs = a := by
  cases bs with
  | nil => exact absurd rfl hne
  | cons b bs => exact h.1

/-- Blocks of one layout do not overlap, headers included. -/
theorem Tiles.disjoint (h : Tiles a e bs) {c d : Block} (hc : c ∈ bs) (hd : d ∈ bs) (hne : c ≠ d) :
    c.address + 32 + c.size ≤ d.address ∨ d.address + 32 + d.size ≤ c.address := by
  induction bs generalizing a with
  | nil => cases hc
  | cons b bs ih =>
    have htail := h.2.2.2
    have hb := h.1
    rcases List.mem_cons.mp hc with rfl | hc' <;> rcases List.mem_cons.mp hd with rfl | hd'
    · exact absurd rfl hne
    · have := (htail.mem hd').1
      omega
    · have := (htail.mem hc').1
      omega
    · exact ih htail hc' hd'

end Tiles

section Headers

variable {m m' : Memory} {a b n v : ℕ}

theorem header_congr (h : ∀ x, b ≤ x → x < b + 32 → m' x = m x) : header m' b = header m b := by
  have hl : ∀ o k, o + k ≤ 32 → load m' (b + o) k = load m (b + o) k := fun o k hk =>
    load_eq_of_unchanged fun x h₁ h₂ => h x (by omega) (by omega)
  have h0 := hl 0 8 (by omega)
  simp only [Nat.add_zero] at h0
  simp only [header, h0, hl 8 8 (by omega), hl 16 8 (by omega), hl 24 4 (by omega),
    hl 28 1 (by omega)]

theorem header_store_far (h : b + 32 ≤ a ∨ a + n ≤ b) : header (store m a n v) b = header m b :=
  header_congr fun x h₁ h₂ => store_apply_of_notMem (by omega)

theorem header_store_size (hv : v < 2 ^ 64) :
    header (store m b 8 v) b = { header m b with size := v } := by
  simp (disch := omega) only [header, load_store_same, load_store_of_disjoint]
  rw [Nat.mod_eq_of_lt (by norm_num; omega)]

theorem header_store_previous (hv : v < 2 ^ 64) :
    header (store m (b + 8) 8 v) b = { header m b with previous := v } := by
  simp (disch := omega) only [header, load_store_same, load_store_of_disjoint]
  rw [Nat.mod_eq_of_lt (by norm_num; omega)]

theorem header_store_next (hv : v < 2 ^ 64) :
    header (store m (b + 16) 8 v) b = { header m b with next := v } := by
  simp (disch := omega) only [header, load_store_same, load_store_of_disjoint]
  rw [Nat.mod_eq_of_lt (by norm_num; omega)]

theorem header_store_magic (hv : v < 2 ^ 32) :
    header (store m (b + 24) 4 v) b = { header m b with magic := v } := by
  simp (disch := omega) only [header, load_store_same, load_store_of_disjoint]
  rw [Nat.mod_eq_of_lt (by norm_num; omega)]

theorem header_store_free (f : Bool) :
    header (store m (b + 28) 1 f.toNat) b = { header m b with free := f } := by
  simp (disch := omega) only [header, load_store_same, load_store_of_disjoint]
  cases f <;> rfl

end Headers

section Linked

variable {m m' : Memory} {p n : ℕ} {b : Block} {bs xs ys : List Block}

theorem linked_append : Linked m p n (xs ++ ys) ↔
    Linked m p (headAddress n ys) xs ∧ Linked m (lastAddress p xs) n ys := by
  induction xs generalizing p with
  | nil => simp [Linked]
  | cons x xs ih =>
    simp only [List.cons_append, Linked, ih, headAddress_append, lastAddress_cons, and_assoc]

/-- The list structure depends on nothing but the header bytes. -/
theorem Linked.congr (h : Linked m p n bs)
    (heq : ∀ b ∈ bs, ∀ x, b.address ≤ x → x < b.address + 32 → m' x = m x) : Linked m' p n bs := by
  induction bs generalizing p with
  | nil => trivial
  | cons b bs ih =>
    refine ⟨?_, ih h.2 fun c hc => heq c (List.mem_cons_of_mem _ hc)⟩
    rw [header_congr (heq b List.mem_cons_self), h.1]

/-- The back link of the first block of `ys` is the only thing that ties `ys` to its left
neighbour. -/
theorem Linked.relink {q : ℕ} (h : Linked m p n bs)
    (hhead : ∀ b bs', bs = b :: bs' →
      header m' b.address = { header m b.address with previous := q } ∧
        ∀ c ∈ bs', ∀ x, c.address ≤ x → x < c.address + 32 → m' x = m x) : Linked m' q n bs := by
  cases bs with
  | nil => trivial
  | cons b bs =>
    obtain ⟨hb, hbs⟩ := hhead b bs rfl
    exact ⟨by rw [hb, h.1], h.2.congr hbs⟩

end Linked

/-- `h` is a heap whose block list is `blocks`. -/
structure Layout (h : Heap) (blocks : List Block) : Prop where
  begin_pos : 0 < h.heapBegin
  begin_aligned : 16 ∣ h.heapBegin
  end_lt : h.heapEnd < 2 ^ 64
  first_eq : h.firstBlock = h.heapBegin
  nonempty : blocks ≠ []
  tiles : Tiles h.heapBegin h.heapEnd blocks
  linked : Linked h.memory 0 0 blocks
  not_wrapped : h.wrapped = false

/-- The counter takes no part in the layout. -/
theorem Layout.withCount {h : Heap} {bs : List Block} (L : Layout h bs) (n : ℕ) :
    Layout { h with allocationCount := n } bs :=
  ⟨L.begin_pos, L.begin_aligned, L.end_lt, L.first_eq, L.nonempty, L.tiles, L.linked,
    L.not_wrapped⟩

end JsOs.HeapLayout

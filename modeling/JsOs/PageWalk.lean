import JsOs.PageTableModel
import JsOs.TableTrees

/-!
# The page walk

How the processor reads the tables: 512 entries of eight bytes, bit 0 for present, bit 7 for a
large page above the last level, and the physical address in bits 12 to 51.
-/

namespace JsOs.PageWalk

open ByteMemory PageTableModel TableTrees

/-- The bytes that one entry of level `n` covers. -/
def span (n : ℕ) : ℕ := 2 ^ (12 + 9 * n)

/-- The part of the address that selects the entry of level `n`. -/
def index (address n : ℕ) : Fin 512 := ⟨address / span n % 512, Nat.mod_lt _ (by decide)⟩

/-- The physical address in an entry of level `n` that maps something. -/
def frame (n entry : ℕ) : ℕ := entry % 2 ^ 52 / span n * span n

/-- The physical page named by an entry or by the control register. -/
def pageNumber (entry : ℕ) : ℕ := entry % 2 ^ 52 / 4096

def decode (n entry : ℕ) : Entry ℕ ℕ :=
  if entry % 2 = 0 then .empty
  else if n = 0 ∨ entry / 128 % 2 = 1 then .value (frame n entry)
  else .table (pageNumber entry)

/-- The tables of a memory; each is known by the number of its page. -/
def tables (m : Memory) : Contents ℕ (Fin 512) ℕ :=
  fun n t i => decode n (load m (4096 * t + 8 * i) 8)

def rootTable (cpu : Processor) : ℕ := pageNumber cpu.cr3

/-- The level of the root, counted from 0. -/
def topLevel (cpu : Processor) : ℕ := if cpu.cr4 / 2 ^ 12 % 2 = 1 then 4 else 3

/-- The physical address behind a virtual address, if it is mapped. -/
def translate (cpu : Processor) (m : Memory) (address : ℕ) : Option ℕ :=
  (lookup (tables m) (index address) (topLevel cpu) (rootTable cpu)).map fun found =>
    found.2 + address % span found.1

/-- The bits above the translated ones repeat the highest of them. -/
def Canonical (cpu : Processor) (address : ℕ) : Prop :=
  address < span (topLevel cpu + 1) / 2 ∨
    2 ^ 64 - span (topLevel cpu + 1) / 2 ≤ address ∧ address < 2 ^ 64

theorem topLevel_eq (cpu : Processor) : topLevel cpu = 3 ∨ topLevel cpu = 4 := by
  unfold topLevel
  split_ifs
  · exact Or.inr rfl
  · exact Or.inl rfl

theorem span_succ (n : ℕ) : span (n + 1) = span n * 512 := by
  unfold span
  rw [show 12 + 9 * (n + 1) = 12 + 9 * n + 9 by omega, pow_add]
  norm_num

/-- The indices give back the address within the span of a table. -/
theorem mod_span_eq {a b : ℕ} (ha : a % 4096 = b % 4096) {n : ℕ}
    (h : ∀ k, k < n → index a k = index b k) : a % span n = b % span n := by
  induction n with
  | zero => exact ha
  | succ n ih =>
    have hlast : a / span n % 512 = b / span n % 512 := congrArg Fin.val (h n (Nat.lt_succ_self n))
    rw [span_succ, Nat.mod_mul, Nat.mod_mul, ih fun k hk => h k (Nat.lt_succ_of_lt hk), hlast]

/-- Two canonical pages that differ have different indices at some level. -/
theorem Canonical.index_ne {cpu : Processor} {a b : ℕ} (ha : Canonical cpu a) (hb : Canonical cpu b)
    (ha' : a % 4096 = 0) (hb' : b % 4096 = 0) (hne : a ≠ b) :
    ∃ k, k ≤ topLevel cpu ∧ index a k ≠ index b k := by
  by_contra hall
  push Not at hall
  have hmod := mod_span_eq (ha'.trans hb'.symm) fun k hk => hall k (Nat.le_of_lt_succ hk)
  unfold Canonical at ha hb
  apply hne
  rcases topLevel_eq cpu with h | h <;>
    · rw [h] at ha hb hmod
      norm_num [span] at ha hb hmod
      omega

end JsOs.PageWalk

import Mathlib.Data.Nat.Init
import Mathlib.Order.Lattice
import Mathlib.Order.Basic

/-!
# Lines of a list

A separator splits a list into lines. Every other element has a place, the number of its line and
its column there, and a walk along the list that counts both finds each element at its place.
-/

namespace JsOs.TextLines

section Longest

variable {α : Type*} {line : List α} {lines : List (List α)}

/-- The length of the longest line. -/
def longest : List (List α) → ℕ
  | [] => 0
  | line :: rest => max line.length (longest rest)

theorem length_le_longest (h : line ∈ lines) : line.length ≤ longest lines := by
  induction lines with
  | nil => cases h
  | cons head rest ih =>
    rcases List.mem_cons.mp h with rfl | hrest
    · exact le_max_left _ _
    · exact (ih hrest).trans (le_max_right _ _)

end Longest

variable {α : Type*} [BEq α] [LawfulBEq α] {sep c : α} {l line : List α} {rest : List (List α)}

theorem splitOn_cons_self (sep : α) (l : List α) : (sep :: l).splitOn sep = [] :: l.splitOn sep := by
  rw [List.splitOn_cons_eq_if_modifyHead, if_pos (beq_self_eq_true sep)]

theorem splitOn_cons_of_ne (hc : c ≠ sep) (hl : l.splitOn sep = line :: rest) :
    (c :: l).splitOn sep = (c :: line) :: rest := by
  rw [List.splitOn_cons_eq_if_modifyHead, if_neg (by simpa using hc), hl]
  rfl

/-- Where a walk that begins at `column` enters its `i`-th line. -/
def entry (column : ℕ) : ℕ → ℕ
  | 0 => column
  | _ + 1 => 0

theorem entry_zero_right (column : ℕ) : entry column 0 = column := rfl

theorem entry_zero_left (i : ℕ) : entry 0 i = 0 := by
  cases i <;> rfl

/-- The elements that a walk passes, each with its row and its column. -/
def placements (sep : α) : List α → ℕ → ℕ → List (ℕ × ℕ × α)
  | [], _, _ => []
  | c :: l, row, column =>
    if c == sep then placements sep l (row + 1) 0
    else (row, column, c) :: placements sep l row (column + 1)

private theorem mem_placements {p : ℕ × ℕ × α} {row column : ℕ} :
    p ∈ placements sep l row column ↔ ∃ i items, (l.splitOn sep)[i]? = some items ∧ p.1 = row + i ∧
      ∃ k, p.2.1 = entry column i + k ∧ items[k]? = some p.2.2 := by
  induction l generalizing row column with
  | nil =>
    refine iff_of_false List.not_mem_nil ?_
    rintro ⟨i, line, hline, -, k, -, hk⟩
    obtain rfl : line = [] := List.mem_singleton.mp (List.mem_of_getElem? hline)
    simp at hk
  | cons c l ih =>
    unfold placements
    by_cases hc : c = sep
    · subst hc
      rw [if_pos (beq_self_eq_true c), ih, splitOn_cons_self]
      constructor
      · rintro ⟨i, line, hline, hrow, hplace⟩
        rw [entry_zero_left] at hplace
        exact ⟨i + 1, line, hline, by omega, hplace⟩
      · rintro ⟨i, line, hline, hrow, hplace⟩
        cases i with
        | zero =>
          obtain rfl : [] = line := Option.some.inj hline
          obtain ⟨k, -, hk⟩ := hplace
          simp at hk
        | succ i =>
          refine ⟨i, line, hline, by omega, ?_⟩
          rw [entry_zero_left]
          exact hplace
    · obtain ⟨line, rest, hl⟩ := List.exists_cons_of_ne_nil (List.splitOn_ne_nil sep l)
      rw [if_neg (by simpa using hc), List.mem_cons, ih, splitOn_cons_of_ne hc hl, hl]
      constructor
      · rintro (rfl | ⟨i, line', hline, hrow, k, hcolumn, hk⟩)
        · exact ⟨0, c :: line, rfl, rfl, 0, rfl, rfl⟩
        · cases i with
          | zero =>
            obtain rfl : line = line' := Option.some.inj hline
            refine ⟨0, c :: line, rfl, hrow, k + 1, ?_, hk⟩
            rw [entry_zero_right] at hcolumn ⊢
            omega
          | succ i => exact ⟨i + 1, line', hline, hrow, k, hcolumn, hk⟩
      · rintro ⟨i, line', hline, hrow, k, hcolumn, hk⟩
        cases i with
        | zero =>
          obtain rfl : c :: line = line' := Option.some.inj hline
          rw [entry_zero_right] at hcolumn
          cases k with
          | zero => exact Or.inl (Prod.ext hrow (Prod.ext hcolumn (Option.some.inj hk).symm))
          | succ k =>
            refine Or.inr ⟨0, line, rfl, hrow, k, ?_, hk⟩
            rw [entry_zero_right]
            omega
        | succ i => exact Or.inr ⟨i + 1, line', hline, hrow, k, hcolumn, hk⟩

/-- The elements stand in the lines where their places say. -/
theorem mem_placements_iff {row column : ℕ} : (row, column, c) ∈ placements sep l 0 0 ↔
    ∃ items, (l.splitOn sep)[row]? = some items ∧ items[column]? = some c := by
  rw [mem_placements]
  simp only [entry_zero_left, Nat.zero_add]
  constructor
  · rintro ⟨i, line, hline, rfl, k, rfl, hk⟩
    exact ⟨line, hline, hk⟩
  · rintro ⟨line, hline, hk⟩
    exact ⟨row, line, hline, rfl, column, rfl, hk⟩

/-- They stand in the box of the longest line and the number of lines. -/
theorem lt_of_mem_placements {row column : ℕ} (h : (row, column, c) ∈ placements sep l 0 0) :
    row < (l.splitOn sep).length ∧ column < longest (l.splitOn sep) := by
  obtain ⟨items, hitems, hc⟩ := mem_placements_iff.mp h
  obtain ⟨hrow, heq⟩ := List.getElem?_eq_some_iff.mp hitems
  obtain ⟨hcolumn, -⟩ := List.getElem?_eq_some_iff.mp hc
  exact ⟨hrow, hcolumn.trans_le (length_le_longest (heq ▸ List.getElem_mem hrow))⟩

/-- An element is a separator or makes one line longer. -/
theorem length_add_longest_le (sep : α) (l : List α) :
    (l.splitOn sep).length + longest (l.splitOn sep) ≤ l.length + 1 := by
  induction l with
  | nil => exact Nat.le_refl 1
  | cons c l ih =>
    obtain ⟨line, rest, hl⟩ := List.exists_cons_of_ne_nil (List.splitOn_ne_nil sep l)
    by_cases hc : c = sep
    · subst hc
      rw [splitOn_cons_self, longest, List.length_cons, List.length_cons, List.length_nil]
      omega
    · rw [hl, longest, List.length_cons] at ih
      rw [splitOn_cons_of_ne hc hl, longest, List.length_cons, List.length_cons, List.length_cons]
      omega

end JsOs.TextLines

import Mathlib.Data.List.Basic
import Mathlib.Tactic.IntervalCases
import Mathlib.Tactic.NormNum
import Mathlib.Tactic.SplitIfs

/-!
# The layout of UTF-8

Numbers of up to 31 bits as sequences of a first byte and one to five continuation bytes. A first
byte tells the length of its sequence by its mark and has room for the bits that the continuation
bytes do not hold, six in each. Each length has the numbers that no shorter sequence can hold.
-/

namespace JsOs.Utf8Layout

/-- The last `6 * l` bits of a number, most significant first. -/
def tail : ℕ → ℕ → List UInt8
  | 0, _ => []
  | l + 1, c => UInt8.ofNat (0x80 + c / 64 ^ l % 64) :: tail l c

/-- The mark of a first byte before `l` continuation bytes: `l + 1` ones and a zero. -/
def mark (l : ℕ) : ℕ := 256 - 2 ^ (7 - l)

/-- The numbers of a first byte beside its mark. -/
def room (l : ℕ) : ℕ := 2 ^ (6 - l)

/-- The least number that needs `l` continuation bytes. -/
def least (l : ℕ) : ℕ := if l = 1 then 0x80 else 2 ^ (5 * l + 1)

def byteSequence (l c : ℕ) : List UInt8 := UInt8.ofNat (mark l + c / 64 ^ l) :: tail l c

/-- A number takes `l` continuation bytes. -/
structure Needs (l c : ℕ) : Prop where
  pos : 1 ≤ l
  le : l ≤ 5
  least_le : least l ≤ c
  lt : c < room l * 64 ^ l

/-- The number that continuation bytes make of the bits before them, and the bytes that remain. -/
def readTail : ℕ → ℕ → List UInt8 → Option (ℕ × List UInt8)
  | 0, a, p => some (a, p)
  | l + 1, a, b :: p =>
    if b < 0x80 ∨ b ≥ 0xc0 then none else readTail l (a * 64 + b.toNat % 64) p
  | _ + 1, _, [] => none

variable {l l' a c c' : ℕ} {b : UInt8} {p rest rest' : List UInt8}

theorem tail_length (l c : ℕ) : (tail l c).length = l := by
  induction l with
  | zero => rfl
  | succ l ih => rw [tail, List.length_cons, ih]

theorem sequence_length (l c : ℕ) : (byteSequence l c).length = l + 1 := by
  rw [byteSequence, List.length_cons, tail_length]

theorem toNat_ofNat (h : a < 256) : (UInt8.ofNat a).toNat = a := by
  rw [UInt8.toNat_ofNat', Nat.mod_eq_of_lt h]

theorem continuation_iff : ¬(b < 0x80 ∨ b ≥ 0xc0) ↔ b = UInt8.ofNat (0x80 + b.toNat % 64) := by
  have hb := b.toNat_lt
  rw [← UInt8.toNat_inj, toNat_ofNat (by omega), not_or, UInt8.not_lt, ge_iff_le, UInt8.not_le,
    UInt8.le_iff_toNat_le, UInt8.lt_iff_toNat_lt]
  change 128 ≤ b.toNat ∧ b.toNat < 192 ↔ _
  omega

/-- Reading is the inverse of laying out. -/
theorem readTail_iff :
    readTail l a p = some (c, rest) ↔ c / 64 ^ l = a ∧ p = tail l c ++ rest := by
  induction l generalizing a p with
  | zero => simp [readTail, tail, eq_comm]
  | succ l ih =>
    cases p with
    | nil => simp [readTail, tail]
    | cons b p =>
      rw [readTail, tail, List.cons_append, List.cons.injEq, pow_succ, ← Nat.div_div_eq_div_mul]
      by_cases hb : b < 0x80 ∨ b ≥ 0xc0
      · rw [if_pos hb]
        refine iff_of_false (by simp) fun ⟨_, hbyte, _⟩ => ?_
        refine continuation_iff.mpr ?_ hb
        rw [hbyte, toNat_ofNat (by omega), Nat.add_mod, Nat.mod_mod]
        simp
      · rw [if_neg hb, ih]
        have hbyte := continuation_iff.mp hb
        constructor
        · rintro ⟨hc, rfl⟩
          refine ⟨by omega, ?_, rfl⟩
          rw [hc, Nat.add_mod, Nat.mul_mod_left, Nat.zero_add, Nat.mod_mod, Nat.mod_mod]
          exact hbyte
        · rintro ⟨ha, hb', rfl⟩
          refine ⟨?_, rfl⟩
          have hmod : b.toNat % 64 = c / 64 ^ l % 64 := by
            rw [hb', toNat_ofNat (by omega)]
            omega
          omega

theorem pow_pos_64 (l : ℕ) : 0 < 64 ^ l := Nat.pow_pos (by decide)

namespace Needs

/-- The first byte has room for the bits that are left. -/
theorem first_lt (h : Needs l c) : c / 64 ^ l < room l :=
  (Nat.div_lt_iff_lt_mul (pow_pos_64 l)).mpr h.lt

end Needs

/-- The marks leave room for the first bits in a byte. -/
theorem mark_add_room (hpos : 1 ≤ l) (hle : l ≤ 5) : 0x80 ≤ mark l ∧ mark l + room l ≤ 256 := by
  interval_cases l <;> decide

theorem exists_needs (h : 0x80 ≤ c) (h' : c < 2 ^ 31) : ∃ l, Needs l c := by
  by_cases h₁ : c < 0x800
  · exact ⟨1, by decide, by decide, h, h₁⟩
  by_cases h₂ : c < 0x10000
  · exact ⟨2, by decide, by decide, Nat.le_of_not_lt h₁, h₂⟩
  by_cases h₃ : c < 0x200000
  · exact ⟨3, by decide, by decide, Nat.le_of_not_lt h₂, h₃⟩
  by_cases h₄ : c < 0x4000000
  · exact ⟨4, by decide, by decide, Nat.le_of_not_lt h₃, h₄⟩
  · exact ⟨5, by decide, by decide, Nat.le_of_not_lt h₄, h'⟩

theorem Needs.lt_two_pow (h : Needs l c) : 0x80 ≤ c ∧ c < 2 ^ 31 := by
  obtain ⟨hpos, hle, hleast, hlt⟩ := h
  unfold least at hleast
  unfold room at hlt
  interval_cases l <;> norm_num at hleast hlt ⊢ <;> omega

end JsOs.Utf8Layout

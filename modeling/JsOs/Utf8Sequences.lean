import JsOs.EngineStrings
import JsOs.Utf8Layout

/-!
# The UTF-8 of the script engine

`unicode_from_utf8` accepts exactly the sequences that `unicode_to_utf8` makes, and gives back the
number each was made of.
-/

namespace JsOs.Utf8Sequences

open EngineStrings Utf8Layout

variable {l c : ℕ} {b : UInt8} {p rest : List UInt8}

/-- A mark above the bits that it marks. -/
theorem or_mark {k x m : ℕ} (hx : x < 2 ^ k) : x ||| 2 ^ k * m = 2 ^ k * m + x := by
  rw [Nat.or_comm, Nat.two_pow_add_eq_or_of_lt hx]

theorem continuation_shift (c k : ℕ) :
    continuation (c >>> (6 * k)) = UInt8.ofNat (0x80 + c / 64 ^ k % 64) := by
  unfold continuation
  rw [show 0x3f = 2 ^ 6 - 1 from rfl, Nat.and_two_pow_sub_one_eq_mod, Nat.shiftRight_eq_div_pow,
    show 0x80 = 2 ^ 6 * 2 from rfl, or_mark (Nat.mod_lt _ (by decide)), Nat.pow_mul]
  rfl

theorem unicodeToUtf8_ascii (h : c < 0x80) : unicodeToUtf8 c = [UInt8.ofNat c] := if_pos h

theorem first_byte (h : Needs l c) : c >>> (6 * l) ||| mark l = mark l + c / 64 ^ l := by
  have hmark : mark l = 2 ^ (6 - l) * (2 ^ (l + 2) - 2) := by
    have hpos := h.pos
    have hle := h.le
    interval_cases l <;> rfl
  rw [hmark, Nat.shiftRight_eq_div_pow, Nat.pow_mul]
  exact or_mark h.first_lt

theorem unicodeToUtf8_eq (h : Needs l c) : unicodeToUtf8 c = byteSequence l c := by
  have hpos := h.pos
  have hle := h.le
  have hleast := h.least_le
  have hlt := h.lt
  rw [byteSequence, ← first_byte h]
  unfold unicodeToUtf8
  interval_cases l
  · change 0x80 ≤ c at hleast
    change c < 0x800 at hlt
    rw [if_neg (by omega), if_pos hlt, tail, tail, ← continuation_shift]
    rfl
  · change 0x800 ≤ c at hleast
    change c < 0x10000 at hlt
    rw [if_neg (by omega), if_neg (by omega), if_pos hlt, tail, tail, tail, ← continuation_shift,
      ← continuation_shift]
    rfl
  · change 0x10000 ≤ c at hleast
    change c < 0x200000 at hlt
    rw [if_neg (by omega), if_neg (by omega), if_neg (by omega), if_pos hlt, tail, tail, tail, tail,
      ← continuation_shift, ← continuation_shift, ← continuation_shift]
    rfl
  · change 0x200000 ≤ c at hleast
    change c < 0x4000000 at hlt
    rw [if_neg (by omega), if_neg (by omega), if_neg (by omega), if_neg (by omega), if_pos hlt,
      tail, tail, tail, tail, tail, ← continuation_shift, ← continuation_shift,
      ← continuation_shift, ← continuation_shift]
    rfl
  · change 0x4000000 ≤ c at hleast
    change c < 0x80000000 at hlt
    rw [if_neg (by omega), if_neg (by omega), if_neg (by omega), if_neg (by omega),
      if_neg (by omega), if_pos hlt, tail, tail, tail, tail, tail, tail, ← continuation_shift,
      ← continuation_shift, ← continuation_shift, ← continuation_shift, ← continuation_shift]
    rfl

/-- The number of continuation bytes that a first byte announces. -/
theorem following_iff : following b = some l ↔
    1 ≤ l ∧ l ≤ 5 ∧ mark l ≤ b.toNat ∧ b.toNat < mark l + room l := by
  simp only [following, UInt8.le_iff_toNat_le, UInt8.reduceToNat]
  constructor
  · intro h
    split_ifs at h with h₁ h₂ h₃ h₄ h₅
    · cases h
      exact ⟨by decide, by decide, h₁.1, Nat.lt_succ_of_le h₁.2⟩
    · cases h
      exact ⟨by decide, by decide, h₂.1, Nat.lt_succ_of_le h₂.2⟩
    · cases h
      exact ⟨by decide, by decide, h₃.1, Nat.lt_succ_of_le h₃.2⟩
    · cases h
      exact ⟨by decide, by decide, h₄.1, Nat.lt_succ_of_le h₄.2⟩
    · cases h
      exact ⟨by decide, by decide, h₅.1, Nat.lt_succ_of_le h₅.2⟩
  · rintro ⟨hpos, hle, hlow, hhigh⟩
    unfold mark at hlow hhigh
    unfold room at hhigh
    interval_cases l
    · rw [if_pos (by omega)]
    · rw [if_neg (by omega), if_pos (by omega)]
    · rw [if_neg (by omega), if_neg (by omega), if_pos (by omega)]
    · rw [if_neg (by omega), if_neg (by omega), if_neg (by omega), if_pos (by omega)]
    · rw [if_neg (by omega), if_neg (by omega), if_neg (by omega), if_neg (by omega),
        if_pos (by omega)]

theorem readContinuations_eq (l c : ℕ) (p : List UInt8) :
    readContinuations l c p = readTail l c p := by
  induction l generalizing c p with
  | zero => rfl
  | succ l ih =>
    cases p with
    | nil => rfl
    | cons b p =>
      rw [readContinuations, readTail, ih]
      rw [show 0x3f = 2 ^ 6 - 1 from rfl, Nat.and_two_pow_sub_one_eq_mod, Nat.shiftLeft_eq,
        Nat.mul_comm c, ← Nat.two_pow_add_eq_or_of_lt (Nat.mod_lt _ (by decide)), Nat.mul_comm]

/-- The mask of a first byte takes its mark away. -/
theorem mask_eq (h : following b = some l) :
    b.toNat &&& utf8FirstCodeMask.getD (l - 1) 0 = b.toNat - mark l := by
  obtain ⟨hpos, hle, hlow, hhigh⟩ := following_iff.mp h
  have hmask : utf8FirstCodeMask.getD (l - 1) 0 = 2 ^ (6 - l) - 1 := by interval_cases l <;> rfl
  have hmark : mark l = 2 ^ (6 - l) * (2 ^ (l + 2) - 2) := by interval_cases l <;> rfl
  have hrest : b.toNat = b.toNat - mark l + 2 ^ (6 - l) * (2 ^ (l + 2) - 2) := by omega
  rw [hmask, Nat.and_two_pow_sub_one_eq_mod]
  conv_lhs => rw [hrest]
  rw [Nat.add_mul_mod_self_left]
  unfold room at hhigh
  exact Nat.mod_eq_of_lt (by omega)

theorem utf8MinCode_eq (h : 1 ≤ l) (h' : l ≤ 5) : utf8MinCode.getD (l - 1) 0 = least l := by
  interval_cases l <;> rfl

/-- A sequence is read if its first byte announces what the number needs. -/
theorem unicodeFromUtf8_long {maxLen : ℤ} (hb : ¬b < 0x80) :
    unicodeFromUtf8 (b :: p) maxLen = some (c, rest) ↔
      ∃ l, Needs l c ∧ (l : ℤ) + 1 ≤ maxLen ∧ b :: p = byteSequence l c ++ rest := by
  rw [unicodeFromUtf8, if_neg hb]
  constructor
  · intro h
    obtain ⟨l, hl, h⟩ := Option.bind_eq_some_iff.mp h
    split_ifs at h with hroom
    obtain ⟨⟨c', rest'⟩, hread, h⟩ := Option.bind_eq_some_iff.mp h
    dsimp only at h
    split_ifs at h with hleast
    cases h
    obtain ⟨hpos, hle, hlow, hhigh⟩ := following_iff.mp hl
    rw [readContinuations_eq, mask_eq hl, readTail_iff] at hread
    obtain ⟨hc, rfl⟩ := hread
    rw [utf8MinCode_eq hpos hle, Nat.not_lt] at hleast
    refine ⟨l, ⟨hpos, hle, hleast, ?_⟩, by omega, ?_⟩
    · exact (Nat.div_lt_iff_lt_mul (pow_pos_64 l)).mp (by omega)
    · rw [byteSequence, List.cons_append, hc, Nat.add_sub_cancel' hlow, UInt8.ofNat_toNat]
  · rintro ⟨l, hneeds, hroom, heq⟩
    rw [byteSequence, List.cons_append, List.cons.injEq] at heq
    obtain ⟨rfl, rfl⟩ := heq
    have hfirst := hneeds.first_lt
    have hsum := mark_add_room hneeds.pos hneeds.le
    have hbyte : (UInt8.ofNat (mark l + c / 64 ^ l)).toNat = mark l + c / 64 ^ l :=
      toNat_ofNat (by omega)
    have hl : following (UInt8.ofNat (mark l + c / 64 ^ l)) = some l :=
      following_iff.mpr ⟨hneeds.pos, hneeds.le, hbyte.symm ▸ Nat.le_add_right _ _,
        hbyte.symm ▸ Nat.add_lt_add_left hfirst _⟩
    rw [hl, Option.bind_some, if_neg (by omega), readContinuations_eq, mask_eq hl,
      readTail_iff.mpr ⟨by rw [hbyte, Nat.add_sub_cancel_left], rfl⟩, Option.bind_some]
    dsimp only
    rw [utf8MinCode_eq hneeds.pos hneeds.le, if_neg (Nat.not_lt.mpr hneeds.least_le)]

/-- The first byte of a sequence tells an ASCII character from a longer one. -/
theorem ascii_iff (hc : c < 2 ^ 31) (heq : b :: p = unicodeToUtf8 c ++ rest) :
    b < 0x80 ↔ c < 0x80 := by
  rw [UInt8.lt_iff_toNat_lt]
  change b.toNat < 0x80 ↔ _
  by_cases hascii : c < 0x80
  · rw [unicodeToUtf8_ascii hascii] at heq
    cases heq
    rw [toNat_ofNat (by omega)]
  · obtain ⟨l, hneeds⟩ := exists_needs (Nat.le_of_not_lt hascii) hc
    rw [unicodeToUtf8_eq hneeds] at heq
    cases heq
    have hfirst := hneeds.first_lt
    have hmark := mark_add_room hneeds.pos hneeds.le
    rw [toNat_ofNat (by omega)]
    generalize c / 64 ^ l = first
    omega

theorem unicodeToUtf8_ne_nil (hc : c < 2 ^ 31) : unicodeToUtf8 c ≠ [] := by
  by_cases hascii : c < 0x80
  · rw [unicodeToUtf8_ascii hascii]
    exact List.cons_ne_nil _ _
  · obtain ⟨l, hneeds⟩ := exists_needs (Nat.le_of_not_lt hascii) hc
    rw [unicodeToUtf8_eq hneeds]
    exact List.cons_ne_nil _ _

/-- What `unicode_to_utf8` makes is read. -/
theorem unicodeFromUtf8_encoded {maxLen : ℤ} (hc : c < 2 ^ 31)
    (hroom : ((unicodeToUtf8 c).length : ℤ) ≤ maxLen) (rest : List UInt8) :
    unicodeFromUtf8 (unicodeToUtf8 c ++ rest) maxLen = some (c, rest) := by
  by_cases hascii : c < 0x80
  · have hb : UInt8.ofNat c < 0x80 := by
      rw [UInt8.lt_iff_toNat_lt, toNat_ofNat (by omega)]
      exact hascii
    rw [unicodeToUtf8_ascii hascii, List.singleton_append, unicodeFromUtf8, if_pos hb,
      toNat_ofNat (by omega)]
  · obtain ⟨l, hneeds⟩ := exists_needs (Nat.le_of_not_lt hascii) hc
    obtain ⟨b, p, heq⟩ := List.exists_cons_of_ne_nil (unicodeToUtf8_ne_nil hc)
    have hfirst : b :: (p ++ rest) = unicodeToUtf8 c ++ rest := by rw [heq, List.cons_append]
    rw [← hfirst]
    refine (unicodeFromUtf8_long (mt (ascii_iff hc hfirst).mp hascii)).mpr ⟨l, hneeds, ?_, ?_⟩
    · rw [unicodeToUtf8_eq hneeds, sequence_length] at hroom
      omega
    · rw [hfirst, unicodeToUtf8_eq hneeds]

/-- What is read begins as `unicode_to_utf8` makes it. -/
theorem encoded_of_unicodeFromUtf8 {maxLen : ℤ} (hpos : 1 ≤ maxLen)
    (h : unicodeFromUtf8 p maxLen = some (c, rest)) :
    c < 2 ^ 31 ∧ p = unicodeToUtf8 c ++ rest ∧ ((unicodeToUtf8 c).length : ℤ) ≤ maxLen := by
  cases p with
  | nil => cases h
  | cons b p =>
    by_cases hb : b < 0x80
    · have hlt : b.toNat < 0x80 := UInt8.lt_iff_toNat_lt.mp hb
      rw [unicodeFromUtf8, if_pos hb] at h
      cases h
      rw [unicodeToUtf8_ascii hlt, UInt8.ofNat_toNat]
      exact ⟨by omega, rfl, hpos⟩
    · obtain ⟨l, hneeds, hroom, heq⟩ := (unicodeFromUtf8_long hb).mp h
      rw [unicodeToUtf8_eq hneeds, sequence_length]
      exact ⟨hneeds.lt_two_pow.2, heq, by omega⟩

/-- `unicode_from_utf8` reads a number exactly if the bytes begin with what `unicode_to_utf8` makes
of it and so many bytes may be read; it then leaves the bytes behind. No other sequence, overlong
ones among them, is accepted. -/
theorem unicodeFromUtf8_iff {maxLen : ℤ} (hpos : 1 ≤ maxLen) (c : ℕ) (p rest : List UInt8) :
    unicodeFromUtf8 p maxLen = some (c, rest) ↔
      c < 2 ^ 31 ∧ p = unicodeToUtf8 c ++ rest ∧ ((unicodeToUtf8 c).length : ℤ) ≤ maxLen := by
  constructor
  · exact encoded_of_unicodeFromUtf8 hpos
  · rintro ⟨hc, rfl, hroom⟩
    exact unicodeFromUtf8_encoded hc hroom rest

/-- A sequence of four bytes, with and without room for it, and an overlong one. -/
theorem unicodeFromUtf8_iff_four :
    unicodeFromUtf8 [0xf0, 0x9f, 0x98, 0x80, 0x61] 5 = some (0x1f600, [0x61]) ∧
      unicodeFromUtf8 [0xf0, 0x9f, 0x98, 0x80, 0x61] 3 ≠ some (0x1f600, [0x61]) ∧
      unicodeFromUtf8 [0xc0, 0x80] 2 ≠ some (0, []) := by
  refine ⟨(unicodeFromUtf8_iff (by decide) _ _ _).mpr (by decide), ?_, ?_⟩
  · exact mt (unicodeFromUtf8_iff (by decide) _ _ _).mp (by decide)
  · exact mt (unicodeFromUtf8_iff (by decide) _ _ _).mp (by decide)

end JsOs.Utf8Sequences

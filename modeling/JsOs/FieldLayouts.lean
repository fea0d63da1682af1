import JsOs.IsoFormats

/-!
# Fields

A field shows its number: from the digits and the sign the number can be read again, whatever the
padding. Without zeros for padding the number of leading zeros shows as well.
-/

namespace JsOs.FieldLayouts

open MachineWords Numerals IsoFormats

section Reading

/-- The digit that a character stands for. -/
def digitOf (c : UInt8) : Option ℕ :=
  if 48 ≤ c.toNat ∧ c.toNat ≤ 57 then some (c.toNat - 48)
  else if 97 ≤ c.toNat ∧ c.toNat ≤ 102 then some (c.toNat - 87)
  else if 65 ≤ c.toNat ∧ c.toNat ≤ 70 then some (c.toNat - 55)
  else none

/-- Read digits on from a number, and skip everything else. -/
def readFrom (base n : ℕ) (text : List UInt8) : ℕ :=
  text.foldl (fun n c => (digitOf c).elim n (n * base + ·)) n

variable {base n d : ℕ} {text text' : List UInt8}

theorem readFrom_append : readFrom base n (text ++ text') =
    readFrom base (readFrom base n text) text' := List.foldl_append

theorem readFrom_spaces (k : ℕ) : readFrom base n (List.replicate k (chr ' ')) = n := by
  induction k with
  | zero => rfl
  | succ k ih =>
    rw [List.replicate_succ']
    exact readFrom_append.trans ih

theorem readFrom_zeros (k : ℕ) : readFrom base 0 (List.replicate k (chr '0')) = 0 := by
  induction k with
  | zero => rfl
  | succ k ih =>
    rw [List.replicate_succ', readFrom_append, ih]
    exact Nat.zero_mul base

theorem digitOf_digitCharacter (uppercase : Bool) (h : d < 16) :
    digitOf (digitCharacter uppercase d) = some d := by
  have hall : ∀ uppercase, ∀ d : Fin 16, digitOf (digitCharacter uppercase d) = some d.val := by
    decide
  exact hall uppercase ⟨d, h⟩

theorem readFrom_digits (uppercase : Bool) {ds : List ℕ} (h : ∀ d ∈ ds, d < 16) :
    readFrom base n (ds.map (digitCharacter uppercase)) =
      ds.foldl (fun n d => n * base + d) n := by
  induction ds generalizing n with
  | nil => rfl
  | cons d ds ih =>
    rw [List.map_cons, List.foldl_cons, ← ih fun d hd => h d (List.mem_cons_of_mem _ hd)]
    unfold readFrom
    rw [List.foldl_cons, digitOf_digitCharacter uppercase (h d List.mem_cons_self)]
    rfl

theorem digitCharacter_ne_minus (uppercase : Bool) (h : d < 16) :
    digitCharacter uppercase d ≠ chr '-' := by
  have hall : ∀ uppercase, ∀ d : Fin 16, digitCharacter uppercase d ≠ chr '-' := by decide
  exact hall uppercase ⟨d, h⟩

theorem digitCharacter_eq_zero (uppercase : Bool) (h : d < 16) :
    digitCharacter uppercase d = chr '0' ↔ d = 0 := by
  have hall : ∀ uppercase, ∀ d : Fin 16, digitCharacter uppercase d = chr '0' ↔ d.val = 0 := by
    decide
  exact hall uppercase ⟨d, h⟩

end Reading

section Layouts

variable {left zeros : Bool} {width k : ℕ} {sign digits : List UInt8}

theorem layout_length (left zeros : Bool) (width : ℕ) (sign digits : List UInt8) :
    (layout left zeros width sign digits).length = max width (sign ++ digits).length := by
  unfold layout
  dsimp only
  split_ifs <;> simp only [List.length_append, List.length_replicate] <;> omega

/-- A leading zero of the sign may as well be one of the digits. -/
theorem layout_zero (left zeros : Bool) (width : ℕ) (digits : List UInt8) :
    layout left zeros width [chr '0'] digits = layout left zeros width [] (chr '0' :: digits) := by
  unfold layout
  simp only [List.cons_append, List.nil_append]
  split_ifs
  · rfl
  · rw [← List.singleton_append (l := digits), ← List.append_assoc, ← List.replicate_succ',
      List.replicate_succ]
    rfl
  · simp

theorem readFrom_layout {base : ℕ} (hsign : readFrom base 0 sign = 0) :
    readFrom base 0 (layout left zeros width sign digits) = readFrom base 0 digits := by
  unfold layout
  dsimp only
  split_ifs
  · rw [readFrom_append, readFrom_append, hsign, readFrom_spaces]
  · rw [readFrom_append, readFrom_append, hsign, readFrom_zeros]
  · rw [readFrom_append, readFrom_append, readFrom_spaces, hsign]

theorem count_minus_layout :
    (layout left zeros width sign digits).count (chr '-') = (sign ++ digits).count (chr '-') := by
  have hspace (k : ℕ) : (List.replicate k (chr ' ')).count (chr '-') = 0 :=
    List.count_eq_zero.mpr fun h => absurd (List.eq_of_mem_replicate h) (by decide)
  have hzero (k : ℕ) : (List.replicate k (chr '0')).count (chr '-') = 0 :=
    List.count_eq_zero.mpr fun h => absurd (List.eq_of_mem_replicate h) (by decide)
  unfold layout
  dsimp only
  split_ifs <;> simp only [List.count_append, hspace, hzero, Nat.zero_add, Nat.add_zero]

theorem count_zero_layout : (layout left false width sign digits).count (chr '0') =
    (sign ++ digits).count (chr '0') := by
  have hspace (k : ℕ) : (List.replicate k (chr ' ')).count (chr '0') = 0 :=
    List.count_eq_zero.mpr fun h => absurd (List.eq_of_mem_replicate h) (by decide)
  unfold layout
  simp only [Bool.false_eq_true, if_false]
  split_ifs
  · rw [List.count_append, hspace, Nat.add_zero]
  · simp only [List.count_append, hspace, Nat.zero_add]

end Layouts

section Numbers

variable (D : IntegerDirective) {n n' : ℤ} {left zeros : Bool} {width k k' : ℕ}

/-- A number in the base of the conversion, behind some zeros. -/
def padded (k : ℕ) (n : ℤ) : List UInt8 := List.replicate k (chr '0') ++
  (numeral D.conversion.base n.natAbs).map (digitCharacter (D.conversion = .X))

theorem base_bounds : 2 ≤ D.conversion.base ∧ D.conversion.base ≤ 16 := by
  cases D.conversion <;> decide

theorem mem_numeral_lt {d : ℕ} (h : d ∈ numeral D.conversion.base n.natAbs) : d < 16 :=
  (lt_of_mem_numeral (base_bounds D).1 h).trans_le (base_bounds D).2

theorem readFrom_padded (k : ℕ) (n : ℤ) :
    readFrom D.conversion.base 0 (padded D k n) = n.natAbs := by
  unfold padded
  rw [readFrom_append, readFrom_zeros, readFrom_digits _ fun d hd => mem_numeral_lt D hd]
  exact numeralValue_numeral _ _

theorem readFrom_sign (n : ℤ) : readFrom D.conversion.base 0 (D.sign n) = 0 := by
  unfold IntegerDirective.sign
  split_ifs with hsigned hneg hplus hspace halternate
  · rfl
  · rfl
  · rfl
  · rfl
  · obtain ⟨hbase, -, -⟩ := halternate
    revert hbase
    cases D.conversion <;> decide
  · rfl

theorem count_minus_padded (k : ℕ) (n : ℤ) : (padded D k n).count (chr '-') = 0 := by
  refine List.count_eq_zero.mpr fun h => ?_
  rcases List.mem_append.mp h with h | h
  · exact absurd (List.eq_of_mem_replicate h) (by decide)
  · obtain ⟨d, hd, heq⟩ := List.mem_map.mp h
    exact digitCharacter_ne_minus _ (mem_numeral_lt D hd) heq

theorem count_minus_sign (hsigned : D.conversion.signed = true) (n : ℤ) :
    (D.sign n).count (chr '-') = if n < 0 then 1 else 0 := by
  unfold IntegerDirective.sign
  rw [if_pos hsigned]
  split_ifs <;> decide

/-- The field shows the number. -/
theorem number_eq_of_layout (hn : D.conversion.signed = false → 0 ≤ n ∧ 0 ≤ n')
    (h : layout left zeros width (D.sign n) (padded D k n) =
      layout left zeros width (D.sign n') (padded D k' n')) : n = n' := by
  have hread := congrArg (readFrom D.conversion.base 0) h
  rw [readFrom_layout (readFrom_sign D n), readFrom_layout (readFrom_sign D n'), readFrom_padded,
    readFrom_padded] at hread
  cases hsigned : D.conversion.signed with
  | false =>
    obtain ⟨h₁, h₂⟩ := hn hsigned
    omega
  | true =>
    have hminus := congrArg (List.count (chr '-')) h
    rw [count_minus_layout, count_minus_layout, List.count_append, List.count_append,
      count_minus_padded, count_minus_padded, count_minus_sign D hsigned,
      count_minus_sign D hsigned] at hminus
    split_ifs at hminus <;> omega

/-- Where the padding is not zeros, the field shows the zeros before the number. -/
theorem zeros_eq_of_layout (h : layout left false width (D.sign n) (padded D k n) =
    layout left false width (D.sign n) (padded D k' n)) : k = k' := by
  have hcount := congrArg (List.count (chr '0')) h
  rw [count_zero_layout, count_zero_layout] at hcount
  simp only [padded, List.count_append, List.count_replicate_self] at hcount
  omega

end Numbers

end JsOs.FieldLayouts

import JsOs.IntegerConversions

/-!
# Conformance of the integer conversions

`vsnprintf` prints the field that ISO C wants as long as the argument is a value of the type that
the modifier names, a precision of 0 does not meet the value 0, a precision does not give an octal
number of the form `#` its leading zero, and all lengths fit in an `int`.
-/

namespace JsOs.IsoConformance

open MachineWords FormatModel Numerals IsoFormats FormatScanning FormatTruncation FieldLayouts
open IntegerConversions

variable (D : IntegerDirective)

structure Supported : Prop where
  fits : Fits D
  in_type : D.number = passedNumber D
  digit : D.number = 0 → D.digitCount = some 0 → D.conversion = .o ∧ .alternate ∈ D.flags
  octal : D.conversion = .o → .alternate ∈ D.flags → D.number ≠ 0 →
    D.digitCount.getD 0 ≤ (numeral 8 D.number.natAbs).length
  length_le : (D.sign D.number).length + D.digitCount.getD 0 ≤ int32Max

/-- The field that is printed is the one that ISO C wants. -/
def Conforms : Prop := D.Undefined ∨ Emits D D.isoField

section Lengths

theorem numeral_length_le_bits {n : ℤ} (hn : n.natAbs < 2 ^ 64) :
    (numeral D.conversion.base n.natAbs).length ≤ 64 :=
  numeral_length_le (base_bounds D).1
    (hn.trans_le (Nat.pow_le_pow_left (base_bounds D).1 64))

theorem plainDigits_length_le {n : ℤ} (hn : n.natAbs < 2 ^ 64) :
    (plainDigits D n).length ≤ 64 := by
  by_cases h : n = 0
  · rw [h, plainDigits_zero]
    decide
  · rw [plainDigits_of_ne_zero D h, padded_length, Nat.zero_add]
    exact numeral_length_le_bits D hn

theorem sign_length_le (n : ℤ) : (D.sign n).length ≤ 2 := by
  unfold IntegerDirective.sign
  split_ifs <;> simp

theorem octalZero_length_le (n : ℤ) : (octalZero D n).length ≤ 1 := by
  unfold octalZero
  split_ifs <;> decide

theorem number_lt : D.number.natAbs < 2 ^ 64 := by
  have hbits := bits_lt (valueBits_le D.modifier) (D.value.setWidth D.modifier.valueBits)
  unfold IntegerDirective.number
  split_ifs
  · exact hbits.2
  · exact hbits.1

theorem passedNumber_lt : (passedNumber D).natAbs < 2 ^ 64 := by
  have hbits := bits_lt (argumentBits_le D.modifier) D.value
  unfold passedNumber
  split_ifs
  · exact hbits.2
  · exact hbits.1

variable {D}

theorem digitCount_le (hfits : Fits D) : D.digitCount.getD 0 < 2 ^ 31 := by
  have hbound := hfits.precision_le
  unfold int32Max at hbound
  unfold IntegerDirective.digitCount
  cases h : D.precision with
  | none => decide
  | some p =>
    have hp := hbound p h
    simp only [Option.bind_some]
    split_ifs
    · decide
    · exact (Int.toNat_lt' (by decide)).mpr (by omega)

theorem width_lt (hfits : Fits D) : D.width.amount.natAbs < 2 ^ 31 := by
  have hwidth := hfits.width_le
  rw [Int.abs_eq_natAbs] at hwidth
  unfold int32Max at hwidth
  omega

theorem isoField_length_lt (hfits : Fits D) :
    D.isoField.length < D.width.amount.natAbs + 2 ^ 32 := by
  have hnumeral := numeral_length_le_bits D (number_lt D)
  have hcount := digitCount_le hfits
  have hcount' : D.digitCount.getD 1 ≤ D.digitCount.getD 0 + 1 := by
    cases D.digitCount <;> simp
  have hsign := sign_length_le D D.number
  have hzeros : isoZeros D D.number ≤ D.digitCount.getD 1 + 1 := by
    unfold isoZeros
    dsimp only
    split_ifs <;> omega
  unfold IntegerDirective.isoField
  rw [layout_length, digits_eq, List.length_append, padded_length]
  omega

end Lengths

section Texts

variable {D}

theorem not_isFloating : ¬isFloating (directiveOf D).conversion := by
  have hall : ∀ c : Conversion, ¬isFloating c.character := by
    intro c
    cases c <;> decide
  exact hall D.conversion

theorem width_toNat : (directiveOf D).width.toNat = D.width.amount.natAbs := by
  have hwidth : (directiveOf D).width = |D.width.amount| := rfl
  rw [hwidth, Int.abs_eq_natAbs, Int.toNat_natCast]

/-- The text of a field whose length fits in an `int`. -/
theorem convertedText_eq (hfits : Fits D) {n : ℤ} (htotal : (D.sign n ++ octalZero D n).length +
    max (D.digitCount.getD 0) (plainDigits D n).length < 2 ^ 31) :
    convertedText (directiveOf D) (.field (D.sign n ++ octalZero D n) (plainDigits D n)) =
      some (layout D.leftJustified (.zero ∈ D.flags ∧ D.digitCount = none) D.width.amount.natAbs
        (D.sign n) (padded D (codeZeros D n) n)) := by
  rw [← precision_toNat] at htotal
  have htext := fieldText_eq (directiveOf D) not_isFloating (abs_nonneg D.width.amount)
    hfits.width_le htotal
  unfold convertedText
  dsimp only
  rw [htext, precision_toNat, width_toNat, ← layout_plainDigits]
  simp only [precision_neg]
  simp only [directiveOf, decide_eq_true_eq]

/-- The text of a field whose length does not fit is far too long. -/
theorem convertedText_wraps (hfits : Fits D) {n : ℤ} (hn : n.natAbs < 2 ^ 64)
    (htotal : 2 ^ 31 ≤ (D.sign n ++ octalZero D n).length +
      max (D.digitCount.getD 0) (plainDigits D n).length) {text : List UInt8}
    (htext : convertedText (directiveOf D)
      (.field (D.sign n ++ octalZero D n) (plainDigits D n)) = some text) :
    text.length = D.width.amount.natAbs + 2 ^ 32 ∧ text.length < 2 ^ 33 := by
  have hsign := sign_length_le D n
  have hoctal := octalZero_length_le D n
  have hdigits := plainDigits_length_le D hn
  have hprecision : (directiveOf D).precision ≤ int32Max := by
    have hbound := hfits.precision_le
    have hprecision : (directiveOf D).precision = D.precision.elim (-1) Amount.amount := rfl
    rw [hprecision]
    cases h : D.precision with
    | none => decide
    | some p => exact hbound p h
  rw [← width_toNat]
  refine fieldText_wraps (directiveOf D) not_isFloating (abs_nonneg D.width.amount) hprecision
    ?_ (by rwa [precision_toNat]) htext
  rw [List.length_append]
  omega

theorem convertedText_length_lt (hfits : Fits D) {n : ℤ} (hn : n.natAbs < 2 ^ 64)
    {text : List UInt8} (htext : convertedText (directiveOf D)
      (.field (D.sign n ++ octalZero D n) (plainDigits D n)) = some text) :
    text.length < 2 ^ 33 := by
  by_cases htotal : (D.sign n ++ octalZero D n).length +
      max (D.digitCount.getD 0) (plainDigits D n).length < 2 ^ 31
  · have hwidth := width_lt hfits
    rw [convertedText_eq hfits htotal, ← layout_plainDigits, Option.some.injEq] at htext
    rw [← htext, layout_length]
    simp only [List.length_append, List.length_replicate] at htotal ⊢
    omega
  · exact (convertedText_wraps hfits hn (not_lt.mp htotal) htext).2

end Texts

section Conformance

variable {D}

theorem passed_nonneg (hsigned : D.conversion.signed = false) :
    0 ≤ passedNumber D ∧ 0 ≤ D.number := by
  unfold passedNumber IntegerDirective.number
  rw [hsigned]
  exact ⟨Int.natCast_nonneg _, Int.natCast_nonneg _⟩

/-- The field that is printed shows the number and its zeros. -/
theorem layouts_eq_iff : layout D.leftJustified (.zero ∈ D.flags ∧ D.digitCount = none)
      D.width.amount.natAbs (D.sign (passedNumber D))
      (padded D (codeZeros D (passedNumber D)) (passedNumber D)) = D.isoField ↔
    D.number = passedNumber D ∧ codeZeros D D.number = isoZeros D D.number := by
  unfold IntegerDirective.isoField
  rw [digits_eq]
  constructor
  · intro h
    have hnumber := number_eq_of_layout D passed_nonneg h
    refine ⟨hnumber.symm, ?_⟩
    rw [hnumber] at h
    cases hcount : D.digitCount with
    | none =>
      refine (codeZeros_eq_isoZeros D).mpr ⟨fun _ hsome => ?_, fun _ _ _ => ?_⟩
      · rw [hcount] at hsome
        cases hsome
      · rw [hcount]
        exact Nat.zero_le _
    | some p =>
      have hzero : decide (.zero ∈ D.flags ∧ D.digitCount = none) = false := by
        rw [hcount]
        simp
      rw [hzero] at h
      exact zeros_eq_of_layout D h
  · rintro ⟨hnumber, hzeros⟩
    rw [← hnumber, hzeros]

/-- A field that ISO C allows is short enough. -/
theorem Supported.total_lt (h : Supported D) : (D.sign (passedNumber D) ++
    octalZero D (passedNumber D)).length +
      max (D.digitCount.getD 0) (plainDigits D (passedNumber D)).length < 2 ^ 31 := by
  have hlength := h.length_le
  have hdigits := plainDigits_length_le D (passedNumber_lt D)
  have hsign := sign_length_le D (passedNumber D)
  rw [h.in_type] at hlength
  unfold int32Max at hlength
  rw [List.length_append]
  unfold octalZero
  split_ifs with hoctal
  · have hcount := h.octal hoctal.1 hoctal.2.1 (by rw [h.in_type]; exact hoctal.2.2)
    have hnumeral := numeral_length_le_bits D (number_lt D)
    rw [show D.conversion.base = 8 by rw [hoctal.1]; rfl] at hnumeral
    rw [List.length_singleton]
    omega
  · rw [List.length_nil]
    omega

theorem supported_iff (hfits : Fits D) (htotal : (D.sign (passedNumber D) ++
    octalZero D (passedNumber D)).length +
      max (D.digitCount.getD 0) (plainDigits D (passedNumber D)).length < 2 ^ 31) :
    Supported D ↔ D.number = passedNumber D ∧ codeZeros D D.number = isoZeros D D.number := by
  rw [codeZeros_eq_isoZeros]
  constructor
  · intro h
    refine ⟨h.in_type, h.digit, fun ho halternate hn => ?_⟩
    have hoctal := h.octal ho halternate hn
    rwa [ho]
  · rintro ⟨hnumber, hdigit, hoctal⟩
    refine ⟨hfits, hnumber, hdigit, fun ho halternate hn => ?_, ?_⟩
    · have hcount := hoctal ho halternate hn
      rwa [ho] at hcount
    · rw [List.length_append] at htotal
      rw [hnumber]
      unfold int32Max
      omega

theorem emits_isoField_iff (hdef : ¬D.Undefined) : Emits D D.isoField ↔ Supported D := by
  by_cases hfits : Fits D
  · have hwidth := width_lt hfits
    have hiso := isoField_length_lt hfits
    have hshort : D.isoField.length + 1 < 2 ^ 64 := by omega
    rw [emits_iff_text D hfits (convert_directive D hdef) hshort fun t ht =>
      (Nat.succ_le_of_lt (convertedText_length_lt hfits (passedNumber_lt D) ht)).trans_lt
        (by decide)]
    by_cases htotal : (D.sign (passedNumber D) ++ octalZero D (passedNumber D)).length +
        max (D.digitCount.getD 0) (plainDigits D (passedNumber D)).length < 2 ^ 31
    · rw [convertedText_eq hfits htotal, Option.some.injEq, layouts_eq_iff,
        supported_iff hfits htotal]
    · refine ⟨fun h => ?_, fun h => absurd h.total_lt htotal⟩
      obtain ⟨hlength, -⟩ := convertedText_wraps hfits (passedNumber_lt D) (not_lt.mp htotal) h
      omega
  · exact ⟨fun h => absurd h (not_emits_of_overflow D hfits _), fun h => absurd h.fits hfits⟩

/-- The conversions conform exactly where they are supported. -/
theorem conforms_iff (D : IntegerDirective) : Conforms D ↔ D.Undefined ∨ Supported D := by
  unfold Conforms
  by_cases hdef : D.Undefined
  · exact ⟨fun _ => .inl hdef, fun _ => .inl hdef⟩
  · rw [emits_isoField_iff hdef]

/-- `%.0d` prints a digit for 0, where ISO C wants none. -/
theorem not_conforms_zero_precision :
    ¬Conforms ⟨[], .digits [], some (.digits [0]), .plain, .d, 0, rfl⟩ := by
  have hdef : ¬IntegerDirective.Undefined
      ⟨[], .digits [], some (.digits [0]), .plain, .d, 0, rfl⟩ := by
    rintro ⟨hmem, -⟩
    cases hmem
  rintro (hundef | hemits)
  · exact hdef hundef
  · have hdigit := ((emits_isoField_iff hdef).mp hemits).digit rfl rfl
    exact absurd hdigit.1 (by decide)

end Conformance

end JsOs.IsoConformance

import JsOs.IsoConformance
import JsOs.StringModel

/-!
# Reading an integer

`atoi` of a text in which an integer is written, and of what `vsnprintf` prints for `%d`. Blanks are
not skipped, and the digits are gathered as a positive `int` whatever the sign.
-/

namespace JsOs.IntegerReading

open MachineWords FormatModel StringModel Numerals IsoFormats FormatScanning FieldLayouts
open FormatTruncation IntegerConversions IsoConformance

inductive Sign where
  | none
  | plus
  | minus
  deriving DecidableEq, Repr

def Sign.text : Sign → List UInt8
  | .none => []
  | .plus => [chr '+']
  | .minus => [chr '-']

def Sign.apply (sign : Sign) (n : ℕ) : ℤ := if sign = .minus then -n else n

/-- An integer that is an `int`, with blanks before it and something else behind it. -/
structure IntegerText where
  blanks : List UInt8
  sign : Sign
  digits : List (Fin 10)
  rest : List UInt8
  blanks_space : ∀ c ∈ blanks, isSpace c
  digits_ne_nil : digits ≠ []
  rest_head : ∀ c, rest.head? = some c → ¬isDigit c
  value_ge : -2 ^ 31 ≤ sign.apply (numeralValue 10 (digits.map Fin.val))
  value_le : sign.apply (numeralValue 10 (digits.map Fin.val)) ≤ int32Max

namespace IntegerText

variable (T : IntegerText)

def text : List UInt8 :=
  T.blanks ++ (T.sign.text ++ (T.digits.map decimalCharacter ++ T.rest))

def magnitude : ℕ := numeralValue 10 (T.digits.map Fin.val)

def value : ℤ := T.sign.apply T.magnitude

end IntegerText

section Reading

theorem readDigits_eq (number : ℤ) (l : List UInt8) : readDigits number l =
    (scanNumber checkInt32 number l).bind fun scanned => scanned.2.head?.map fun _ => scanned.1 := by
  induction l generalizing number with
  | nil => rfl
  | cons c l ih =>
    rw [readDigits, scanNumber]
    split_ifs
    · simp only [Option.bind_assoc, ih]
    · rfl

/-- Digits up to a character that is none. -/
theorem readDigits_text (ds : List (Fin 10)) {rest : List UInt8}
    (hrest : ∀ c, rest.head? = some c → ¬isDigit c) :
    readDigits 0 (ds.map decimalCharacter ++ (rest ++ [0])) =
      checkInt32 (numeralValue 10 (ds.map Fin.val) : ℕ) := by
  obtain ⟨c, tail, htail, hc⟩ : ∃ c tail, rest ++ [0] = c :: tail ∧
      ¬(chr '0' ≤ c ∧ c ≤ chr '9') := by
    cases rest with
    | nil => exact ⟨0, [], rfl, by decide⟩
    | cons c rest => exact ⟨c, rest ++ [0], rfl, by simpa [isDigit] using hrest c rfl⟩
  have hscan := scanNumber_text ds (show 0 < 2 ^ 31 by decide) hc tail
  rw [htail, readDigits_eq, show scanNumber checkInt32 0 _ = _ from hscan, Option.bind_map]
  exact Option.bind_fun_some _

variable (T : IntegerText)

/-- A blank is neither a sign nor a digit. -/
theorem isSpace_plain {c : UInt8} (h : isSpace c) :
    c ≠ chr '-' ∧ c ≠ chr '+' ∧ ¬(chr '0' ≤ c ∧ c ≤ chr '9') :=
  forall_byte (P := fun c => isSpace c → c ≠ chr '-' ∧ c ≠ chr '+' ∧
    ¬(chr '0' ≤ c ∧ c ≤ chr '9')) (by decide +kernel) c h

theorem atoi_blanks (h : T.blanks ≠ []) : atoi (some (T.text ++ [0])) = some 0 := by
  obtain ⟨c, blanks, hblanks⟩ := List.exists_cons_of_ne_nil h
  obtain ⟨hminus, hplus, hdigit⟩ := isSpace_plain
    (T.blanks_space c (by rw [hblanks]; exact List.mem_cons_self))
  unfold IntegerText.text atoi
  rw [hblanks]
  simp only [List.cons_append, List.head?_cons, Option.bind_some, hminus, hplus, or_self, if_false]
  rw [readDigits, if_neg hdigit, Option.bind_some]

theorem atoi_text (h : T.blanks = []) : atoi (some (T.text ++ [0])) =
    (checkInt32 T.magnitude).bind fun value =>
      if T.sign = .minus then checkInt32 (-value) else some value := by
  have hdigits := readDigits_text T.digits T.rest_head
  have hmagnitude : (numeralValue 10 (T.digits.map Fin.val) : ℤ) = T.magnitude := rfl
  rw [hmagnitude] at hdigits
  unfold IntegerText.text
  rw [h, List.nil_append, List.append_assoc, List.append_assoc]
  cases hsign : T.sign with
  | none =>
    obtain ⟨d, ds, hds⟩ := List.exists_cons_of_ne_nil T.digits_ne_nil
    have hd : ∀ d : Fin 10, decimalCharacter d ≠ chr '-' ∧ decimalCharacter d ≠ chr '+' := by decide
    rw [hds] at hdigits ⊢
    unfold atoi
    simp only [Sign.text, List.nil_append, List.map_cons, List.cons_append, List.head?_cons,
      Option.bind_some, (hd d).1, (hd d).2, or_self, if_false] at hdigits ⊢
    rw [hdigits]
    rfl
  | plus =>
    unfold atoi
    simp only [Sign.text, List.singleton_append, List.head?_cons, Option.bind_some, List.tail_cons]
    rw [if_pos (.inr trivial), hdigits]
    rfl
  | minus =>
    unfold atoi
    simp only [Sign.text, List.singleton_append, List.head?_cons, Option.bind_some, List.tail_cons]
    rw [if_pos (.inl trivial), hdigits]

/-- `atoi` returns the integer if no blanks stand before it, but for the least `int`; or if it is
zero. -/
theorem atoi_eq_value_iff : atoi (some (T.text ++ [0])) = some T.value ↔
    T.blanks = [] ∧ T.value ≠ -2 ^ 31 ∨ T.value = 0 := by
  have hge : -2 ^ 31 ≤ T.value := T.value_ge
  have hle : T.value ≤ int32Max := T.value_le
  by_cases h : T.blanks = []
  · have hvalue : T.value = if T.sign = .minus then -(T.magnitude : ℤ) else T.magnitude := rfl
    simp only [h, true_and]
    rw [atoi_text T h]
    unfold int32Max at hle
    by_cases hfits : T.magnitude < 2 ^ 31
    · have hmagnitude : checkInt32 T.magnitude = some (T.magnitude : ℤ) :=
        if_pos ⟨by omega, by unfold int32Max; omega⟩
      have hnegated : checkInt32 (-T.magnitude) = some (-(T.magnitude : ℤ)) :=
        if_pos ⟨by omega, by unfold int32Max; omega⟩
      rw [hmagnitude, Option.bind_some, hnegated, ← apply_ite some, ← hvalue]
      refine iff_of_true rfl (.inl ?_)
      rw [hvalue]
      split_ifs <;> omega
    · rw [checkInt32_eq_none (by unfold int32Max; omega), Option.bind_none]
      refine iff_of_false (by simp) ?_
      rw [hvalue] at hge hle ⊢
      split_ifs at hge hle ⊢ <;> omega
  · rw [atoi_blanks T h, Option.some.injEq]
    simp only [h, false_and, false_or]
    exact eq_comm

end Reading

section Printing

variable {D : IntegerDirective}

/-- A specification `%d` of which the field is padded with spaces on the left. -/
structure PadsWithSpaces (D : IntegerDirective) : Prop where
  conversion : D.conversion = .d
  modifier : D.modifier = .plain
  precision : D.precision = none
  zero : .zero ∉ D.flags
  right : D.leftJustified = false
  width_le : |D.width.amount| ≤ int32Max

/-- The flag for a space counts as a blank. -/
def signBlank (D : IntegerDirective) : List UInt8 :=
  if ¬D.value.toInt < 0 ∧ .plus ∉ D.flags ∧ .space ∈ D.flags then [chr ' '] else []

def printedSign (D : IntegerDirective) : Sign :=
  if D.value.toInt < 0 then .minus else if .plus ∈ D.flags then .plus else .none

def printedDigits (D : IntegerDirective) : List (Fin 10) :=
  if D.value.toInt = 0 then [decimalDigit 0] else
    (numeral 10 D.value.toInt.natAbs).map decimalDigit

theorem sign_eq (h : PadsWithSpaces D) :
    D.sign D.value.toInt = signBlank D ++ (printedSign D).text := by
  unfold IntegerDirective.sign signBlank printedSign
  rw [h.conversion]
  by_cases hneg : D.value.toInt < 0
  · simp [hneg, Conversion.signed, Sign.text]
  · by_cases hplus : .plus ∈ D.flags
    · simp [hneg, hplus, Conversion.signed, Sign.text]
    · by_cases hspace : .space ∈ D.flags <;>
        simp [hneg, hplus, hspace, Conversion.signed, Sign.text]

theorem printedDigits_text (h : PadsWithSpaces D) :
    padded D (codeZeros D D.value.toInt) D.value.toInt =
      (printedDigits D).map decimalCharacter := by
  have hcount : D.digitCount = none := by
    unfold IntegerDirective.digitCount
    rw [h.precision, Option.bind_none]
  have hdigit : ∀ d : Fin 10, digitCharacter false d = decimalCharacter d := by decide
  unfold printedDigits
  by_cases hzero : D.value.toInt = 0
  · rw [if_pos hzero, hzero, padded_zero, codeZeros, if_pos rfl, hcount]
    rfl
  · have hzeros : codeZeros D D.value.toInt = 0 := by
      unfold codeZeros
      rw [if_neg hzero, hcount, h.conversion]
      simp
    rw [if_neg hzero, hzeros, padded, h.conversion, List.replicate_zero, List.nil_append,
      List.map_map]
    apply List.map_congr_left
    intro d hd
    have hlt : d < 10 := lt_of_mem_numeral (by decide) hd
    exact (hdigit ⟨d, hlt⟩).trans (congrArg decimalCharacter (Fin.ext (Nat.mod_eq_of_lt hlt).symm))

theorem printedDigits_value (D : IntegerDirective) :
    numeralValue 10 ((printedDigits D).map Fin.val) = D.value.toInt.natAbs := by
  unfold printedDigits
  by_cases hzero : D.value.toInt = 0
  · rw [if_pos hzero, hzero]
    rfl
  · rw [if_neg hzero, List.map_map]
    have hid : (numeral 10 D.value.toInt.natAbs).map (Fin.val ∘ decimalDigit) =
        numeral 10 D.value.toInt.natAbs := by
      refine (List.map_congr_left fun d hd => ?_).trans (List.map_id _)
      exact Nat.mod_eq_of_lt (lt_of_mem_numeral (by decide) hd)
    rw [hid, numeralValue_numeral]

theorem printedSign_value (D : IntegerDirective) :
    (printedSign D).apply (numeralValue 10 ((printedDigits D).map Fin.val)) = D.value.toInt := by
  rw [printedDigits_value]
  unfold printedSign Sign.apply
  by_cases hneg : D.value.toInt < 0
  · simp only [if_pos hneg, if_true]
    omega
  · rw [if_neg hneg, if_neg (by split_ifs <;> decide)]
    omega

theorem printedDigits_ne_nil (D : IntegerDirective) : printedDigits D ≠ [] := by
  unfold printedDigits
  split_ifs with hzero
  · exact List.cons_ne_nil (decimalDigit 0) []
  · simp [numeral_ne_nil (show D.value.toInt.natAbs ≠ 0 by omega)]

theorem value_bounds (h : PadsWithSpaces D) :
    -2 ^ 31 ≤ D.value.toInt ∧ D.value.toInt ≤ int32Max := by
  have hbits : 2 ^ (D.modifier.argumentBits - 1) = (2 ^ 31 : ℤ) := by
    rw [h.modifier]
    rfl
  have hge := BitVec.le_toInt D.value
  have hlt := BitVec.toInt_lt (x := D.value)
  rw [hbits] at hge hlt
  unfold int32Max
  omega

theorem signBlank_space (D : IntegerDirective) : ∀ c ∈ signBlank D, c = chr ' ' := by
  unfold signBlank
  split_ifs <;> simp

/-- The spaces before a sign or the digits. -/
def leadingSpaces (D : IntegerDirective) : List UInt8 :=
  List.replicate (D.width.amount.natAbs -
    (D.sign D.value.toInt ++ (printedDigits D).map decimalCharacter).length) (chr ' ') ++ signBlank D

theorem leadingSpaces_space (D : IntegerDirective) : ∀ c ∈ leadingSpaces D, c = chr ' ' := by
  intro c hc
  rcases List.mem_append.mp hc with hc | hc
  · exact List.eq_of_mem_replicate hc
  · exact signBlank_space D c hc

/-- What is printed, taken apart. -/
def printedText (D : IntegerDirective) (h : PadsWithSpaces D) : IntegerText where
  blanks := leadingSpaces D
  sign := printedSign D
  digits := printedDigits D
  rest := []
  blanks_space c hc := by
    rw [leadingSpaces_space D c hc]
    decide
  digits_ne_nil := printedDigits_ne_nil D
  rest_head c hc := by cases hc
  value_ge := by
    rw [printedSign_value]
    exact (value_bounds h).1
  value_le := by
    rw [printedSign_value]
    exact (value_bounds h).2

theorem printedText_eq (h : PadsWithSpaces D) : (printedText D h).text =
    layout false false D.width.amount.natAbs (D.sign D.value.toInt)
      (padded D (codeZeros D D.value.toInt) D.value.toInt) := by
  unfold layout IntegerText.text printedText leadingSpaces
  simp only [Bool.false_eq_true, if_false, List.append_nil]
  rw [printedDigits_text h, sign_eq h]
  simp only [List.append_assoc]

theorem emits_printedText (h : PadsWithSpaces D) : Emits D (printedText D h).text := by
  have hfits : Fits D := ⟨h.width_le, fun p hp => by rw [h.precision] at hp; cases hp⟩
  have hsigned : D.conversion.signed = true := by rw [h.conversion]; rfl
  have hcount : D.digitCount = none := by
    unfold IntegerDirective.digitCount
    rw [h.precision, Option.bind_none]
  have hpassed : passedNumber D = D.value.toInt := if_pos hsigned
  have hlt := passedNumber_lt D
  have htotal : (D.sign (passedNumber D) ++ octalZero D (passedNumber D)).length +
      max (D.digitCount.getD 0) (plainDigits D (passedNumber D)).length < 2 ^ 31 := by
    have hsign := sign_length_le D (passedNumber D)
    have hoctal := octalZero_length_le D (passedNumber D)
    have hdigits := plainDigits_length_le D hlt
    rw [hcount, List.length_append, Option.getD_none]
    omega
  have htext := convertedText_eq hfits htotal
  have hzeros : decide (.zero ∈ D.flags ∧ D.digitCount = none) = false :=
    decide_eq_false fun hmem => h.zero hmem.1
  rw [h.right, hzeros, hpassed, ← printedText_eq h] at htext
  have hbound (t : List UInt8) (ht : convertedText (directiveOf D)
      (.field (D.sign (passedNumber D) ++ octalZero D (passedNumber D))
        (plainDigits D (passedNumber D))) = some t) : t.length + 1 < 2 ^ 64 :=
    (Nat.succ_le_of_lt (convertedText_length_lt hfits hlt ht)).trans_lt (by decide)
  rw [hpassed] at hbound
  have hconvert (args : List Argument) : convert (directiveOf D) (D.modifier.pass D.value :: args) =
      some (.field (D.sign D.value.toInt ++ octalZero D D.value.toInt)
        (plainDigits D D.value.toInt), args) := by
    rw [convert_signed D hsigned args, hpassed]
  exact (emits_iff_text D hfits hconvert (hbound _ htext) hbound).mpr htext

/-- A space comes first exactly where there are leading spaces. -/
theorem printedText_head (h : PadsWithSpaces D) :
    (printedText D h).text.head? ≠ some (chr ' ') ↔ (printedText D h).blanks = [] := by
  change (leadingSpaces D ++ ((printedSign D).text ++
    ((printedDigits D).map decimalCharacter ++ []))).head? ≠ _ ↔ leadingSpaces D = []
  cases hspaces : leadingSpaces D with
  | cons c spaces =>
    have hc := leadingSpaces_space D c (by rw [hspaces]; exact List.mem_cons_self)
    simp [hc]
  | nil =>
    refine iff_of_true ?_ rfl
    obtain ⟨d, ds, hds⟩ := List.exists_cons_of_ne_nil (printedDigits_ne_nil D)
    have hdigit : ∀ d : Fin 10, decimalCharacter d ≠ chr ' ' := by decide
    rw [hds]
    cases printedSign D with
    | none => simpa [Sign.text] using hdigit d
    | plus => simp [Sign.text, chr]
    | minus => simp [Sign.text, chr]

end Printing

/-- `atoi` reads an `int` exactly where no blank stands before it and it is not the least one, or
where it is zero; what `vsnprintf` prints for `%d` is no exception. -/
theorem atoi_reads_iff (T : IntegerText) :
    (atoi (some (T.text ++ [0])) = some T.value ↔
      T.blanks = [] ∧ T.value ≠ -2 ^ 31 ∨ T.value = 0) ∧
    ∀ D : IntegerDirective, PadsWithSpaces D → ∃ text, Emits D text ∧
      (atoi (some (text ++ [0])) = some D.value.toInt ↔
        text.head? ≠ some (chr ' ') ∧ D.value.toInt ≠ -2 ^ 31 ∨ D.value.toInt = 0) := by
  refine ⟨atoi_eq_value_iff T, fun D h => ⟨(printedText D h).text, emits_printedText h, ?_⟩⟩
  have hvalue : (printedText D h).value = D.value.toInt := printedSign_value D
  rw [printedText_head h, ← hvalue]
  exact atoi_eq_value_iff (printedText D h)

/-- A space and 42. -/
def spacedText : IntegerText where
  blanks := [chr ' ']
  sign := .none
  digits := [decimalDigit 4, decimalDigit 2]
  rest := []
  blanks_space c hc := by
    rw [List.mem_singleton.mp hc]
    decide
  digits_ne_nil := List.cons_ne_nil (decimalDigit 4) [decimalDigit 2]
  rest_head c hc := by cases hc
  value_ge := by decide
  value_le := by decide

/-- A leading space makes 0 of 42, and the least `int` overflows. -/
theorem atoi_misreads :
    ¬(∀ T : IntegerText, atoi (some (T.text ++ [0])) = some T.value) ∧
      atoi (some (ascii " 42" ++ [0])) = some 0 ∧
      atoi (some (ascii "-2147483648" ++ [0])) = none :=
  ⟨fun h => absurd (h spacedText) (by decide), by decide, by decide⟩

end JsOs.IntegerReading

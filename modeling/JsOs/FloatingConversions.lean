import JsOs.FloatingFormats
import JsOs.IntegerConversions

/-!
# The floating conversions of `vsnprintf`

The padding is that of the integers, but the minus sign is part of the text, and a space for a sign
is never printed. So the field is the one of ISO C only where neither makes a difference.
-/

namespace JsOs.FloatingConversions

open MachineWords FormatModel IsoFormats FormatScanning FormatTruncation FieldLayouts
open IntegerConversions FloatingFormats

section Texts

/-- The text of a number without its sign. -/
structure Magnitude (text : List UInt8) : Prop where
  head : ∃ c tail, text = c :: tail ∧ c ≠ chr ' ' ∧ c ≠ chr '-'
  length_le : text.length ≤ 160

theorem digitLoop_length_le (alphabet : List UInt8) (value base n : ℕ) :
    (digitLoop alphabet value base n).length ≤ n := by
  induction n generalizing value with
  | zero => exact Nat.le_refl 0
  | succ n ih =>
    unfold digitLoop
    dsimp only
    split_ifs
    · exact Nat.succ_le_succ (ih _)
    · exact Nat.succ_le_succ (Nat.zero_le n)

theorem unsignedDigits_length_le (value base : ℕ) (uppercase : Bool) :
    (unsignedDigits value base uppercase).length ≤ 64 := by
  unfold unsignedDigits
  dsimp only
  rw [reverse_loop, List.length_reverse]
  exact digitLoop_length_le _ value base 64

theorem unsignedDigits_head (value : UInt64) : ∃ c tail,
    unsignedDigits value.toNat 10 false = c :: tail ∧ c ≠ chr ' ' ∧ c ≠ chr '-' := by
  have hdigit : ∀ d : Fin 10, digitCharacter false d ≠ chr ' ' ∧ digitCharacter false d ≠ chr '-' := by
    decide
  rw [unsignedDigits_eq (by decide) value.toNat_lt]
  obtain ⟨d, ds, hds⟩ := List.exists_cons_of_ne_nil (Numerals.writtenDigits_ne_nil 10 value.toNat)
  have hlt : d < 10 := Numerals.lt_of_mem_writtenDigits (by decide) (hds ▸ List.mem_cons_self)
  rw [hds]
  exact ⟨_, _, rfl, hdigit ⟨d, hlt⟩⟩

theorem fractionDigits_length (n : ℕ) (fraction : Float) :
    (fractionDigits n fraction).length = n := by
  induction n generalizing fraction with
  | zero => rfl
  | succ n ih =>
    unfold fractionDigits
    dsimp only
    rw [List.length_cons, ih]

/-- The point and the digits behind it. -/
theorem fraction_length_le {precision : ℤ} (h : precision ≤ 12) (fraction : Float) :
    (if precision ≠ 0 then chr '.' :: fractionDigits precision.toNat fraction
      else []).length ≤ 13 := by
  split_ifs
  · rw [List.length_cons, fractionDigits_length]
    omega
  · exact Nat.zero_le 13

theorem exponent_length_le (exponentMode : Bool) (exponent : ℤ) :
    (if exponentMode then
      [chr 'e', if exponent < 0 then chr '-' else chr '+'] ++
        (if exponent.natAbs < 10 then [chr '0'] else []) ++ unsignedDigits exponent.natAbs 10 false
      else []).length ≤ 67 := by
  have hdigits := unsignedDigits_length_le exponent.natAbs 10 false
  split_ifs <;> simp only [List.length_append, List.length_cons, List.length_nil] <;> omega

theorem magnitude_of_parts (integer : UInt64) {fraction exponent : List UInt8}
    (hfraction : fraction.length ≤ 13) (hexponent : exponent.length ≤ 67) :
    Magnitude (unsignedDigits integer.toNat 10 false ++ (fraction ++ exponent)) := by
  have hdigits := unsignedDigits_length_le integer.toNat 10 false
  obtain ⟨c, tail, heq, hc⟩ := unsignedDigits_head integer
  refine ⟨⟨c, tail ++ (fraction ++ exponent), by rw [heq, List.cons_append], hc⟩, ?_⟩
  rw [List.length_append, List.length_append]
  omega

/-- `fixed_double` puts a minus sign before the digits exactly when the sign bit is set. -/
theorem fixedDouble_eq (value : Float) (precision : ℤ) (exponentMode : Bool) :
    ∃ text, fixedDouble value precision exponentMode =
      (if negative value then [chr '-'] else []) ++ text ∧ Magnitude text := by
  unfold fixedDouble negative
  simp only [decide_eq_true_eq]
  split
  · refine ⟨_, rfl, ?_⟩
    split_ifs
    · exact ⟨⟨_, _, rfl, by decide⟩, by decide⟩
    · exact ⟨⟨_, _, rfl, by decide⟩, by decide⟩
  · rw [List.append_assoc, List.append_assoc]
    refine ⟨_, rfl, magnitude_of_parts _ (fraction_length_le ?_ _) (exponent_length_le _ _)⟩
    split_ifs <;> omega

end Texts

section Layouts

variable {left zeros : Bool} {width : ℕ} {sign digits : List UInt8} {a c : UInt8}

theorem head_replicate_append {k : ℕ} (hk : 0 < k) (c : UInt8) (text : List UInt8) :
    (List.replicate k c ++ text).head? = some c := by
  obtain ⟨k, rfl⟩ := Nat.exists_eq_add_of_lt hk
  rfl

/-- Without zeros a sign may as well be one of the digits. -/
theorem layout_cons (h : left = true ∨ zeros = false) (width : ℕ) (c : UInt8) (digits : List UInt8) :
    layout left zeros width [] (c :: digits) = layout left zeros width [c] digits := by
  unfold layout
  simp only [List.nil_append, List.cons_append, List.append_assoc]
  rcases h with rfl | rfl
  · rfl
  · simp

theorem layout_right_spaces (width : ℕ) (sign digits : List UInt8) :
    layout false false width sign digits =
      List.replicate (width - (sign ++ digits).length) (chr ' ') ++ (sign ++ digits) := by
  unfold layout
  rw [← List.append_assoc]
  rfl

theorem layout_right_zeros (width : ℕ) (sign digits : List UInt8) :
    layout false true width sign digits =
      sign ++ (List.replicate (width - (sign ++ digits).length) (chr '0') ++ digits) := by
  unfold layout
  rw [← List.append_assoc]
  rfl

/-- Spaces before the sign are the zeros behind it only where there are none. -/
theorem layout_spaces_eq_zeros_iff (hsign : sign.head? ≠ some (chr ' ')) :
    layout false false width sign digits = layout false true width sign digits ↔
      width ≤ (sign ++ digits).length := by
  rw [layout_right_spaces, layout_right_zeros]
  constructor
  · intro h
    by_contra hshort
    have hpos : 0 < width - (sign ++ digits).length := by omega
    have hhead := congrArg List.head? h
    rw [head_replicate_append hpos] at hhead
    cases sign with
    | nil =>
      rw [List.nil_append, head_replicate_append hpos] at hhead
      exact absurd hhead (by decide)
    | cons c sign => exact hsign hhead.symm
  · intro h
    rw [Nat.sub_eq_zero_of_le h]
    rfl

/-- The same for zeros before the sign. -/
theorem layout_zeros_minus_iff : layout false true width [] (chr '-' :: digits) =
    layout false true width [chr '-'] digits ↔ width ≤ digits.length + 1 := by
  rw [layout_right_zeros, layout_right_zeros, List.nil_append, List.nil_append,
    List.singleton_append, List.singleton_append, List.length_cons]
  constructor
  · intro h
    by_contra hshort
    have hhead := congrArg List.head? h
    rw [head_replicate_append (by omega), List.head?_cons] at hhead
    exact absurd hhead (by decide)
  · intro h
    rw [Nat.sub_eq_zero_of_le h]
    rfl

/-- A space that is missing can only be one of the spaces before the sign. -/
theorem layout_space_iff (hdigits : digits.head? ≠ some (chr ' ')) (hne : digits ≠ [])
    {zeros' : Bool} (hzeros : zeros = true → zeros' = true) :
    layout left zeros width [] digits = layout left zeros' width [chr ' '] digits ↔
      left = false ∧ digits.length + 1 ≤ width ∧
        (zeros' = true → zeros = false ∧ width = digits.length + 1) := by
  constructor
  · intro h
    have hlength := congrArg List.length h
    rw [layout_length, layout_length, List.nil_append, List.singleton_append,
      List.length_cons] at hlength
    have hwidth : digits.length + 1 ≤ width := by omega
    cases left with
    | true =>
      obtain ⟨c, tail, rfl⟩ := List.exists_cons_of_ne_nil hne
      exact absurd (congrArg List.head? h) hdigits
    | false =>
      refine ⟨rfl, hwidth, fun hzeros' => ?_⟩
      subst hzeros'
      cases zeros with
      | true =>
        rw [layout_right_zeros, layout_right_zeros, List.nil_append, List.nil_append,
          List.singleton_append] at h
        have hhead := congrArg List.head? h
        rw [head_replicate_append (by omega), List.head?_cons] at hhead
        exact absurd hhead (by decide)
      | false =>
        refine ⟨rfl, ?_⟩
        by_contra hwide
        obtain ⟨k, hk⟩ : ∃ k, width = digits.length + 1 + (k + 1) :=
          ⟨width - digits.length - 2, by omega⟩
        rw [layout_right_spaces, layout_right_zeros, List.nil_append, List.singleton_append,
          List.singleton_append, List.length_cons, hk, Nat.add_sub_cancel_left, Nat.add_assoc, Nat.add_sub_cancel_left,
          Nat.add_comm 1, List.replicate_succ, List.cons_append, List.cons.injEq] at h
        exact absurd (congrArg List.head? h.2) (by simp [List.replicate_succ, chr])
  · rintro ⟨rfl, hwidth, hexact⟩
    cases zeros' with
    | true =>
      obtain ⟨rfl, rfl⟩ := hexact rfl
      rw [layout_right_spaces, layout_right_zeros, List.nil_append, List.singleton_append,
        List.singleton_append, List.length_cons, Nat.add_sub_cancel_left, Nat.sub_self]
      rfl
    | false =>
      obtain rfl : zeros = false := by
        cases zeros with
        | true => cases hzeros rfl
        | false => rfl
      obtain ⟨k, rfl⟩ := Nat.exists_eq_add_of_le hwidth
      rw [layout_right_spaces, layout_right_spaces, List.nil_append, List.singleton_append,
        List.length_cons, Nat.add_sub_cancel_left, Nat.add_assoc, Nat.add_sub_cancel_left,
        Nat.add_comm 1, List.replicate_succ', List.append_assoc]
      rfl

/-- A sign in the prefix: only the zeros that a precision takes away are missing. -/
theorem layouts_of_prefix (hsign : sign.head? ≠ some (chr ' ')) (given : Bool) :
    layout left (zeros && !given) width sign digits = layout left zeros width sign digits ↔
      (zeros = true → left = false → width ≤ (sign ++ digits).length ∨ given = false) := by
  cases left with
  | true => exact iff_of_true rfl fun _ h => absurd h (by decide)
  | false =>
    cases zeros with
    | false => exact iff_of_true rfl fun h => absurd h (by decide)
    | true =>
      cases given with
      | false => exact iff_of_true rfl fun _ _ => Or.inr rfl
      | true =>
        have hspaces := @layout_spaces_eq_zeros_iff width sign digits hsign
        exact ⟨fun h _ _ => Or.inl (hspaces.mp h),
          fun h => hspaces.mpr ((h rfl rfl).resolve_right (by decide))⟩

/-- A minus sign in the text: zeros come before it. -/
theorem layouts_of_minus (given : Bool) :
    layout left (zeros && !given) width [] (chr '-' :: digits) =
      layout left zeros width [chr '-'] digits ↔
      (zeros = true → left = false → width ≤ digits.length + 1) := by
  cases left with
  | true =>
    rw [layout_cons (Or.inl rfl)]
    exact iff_of_true rfl fun _ h => absurd h (by decide)
  | false =>
    cases zeros with
    | false =>
      rw [Bool.false_and, layout_cons (Or.inr rfl)]
      exact iff_of_true rfl fun h => absurd h (by decide)
    | true =>
      simp only [forall_const, Bool.true_and]
      cases given with
      | false => exact layout_zeros_minus_iff
      | true =>
        rw [Bool.not_true, layout_cons (Or.inr rfl)]
        exact layout_spaces_eq_zeros_iff (by decide)

end Layouts

section Directives

variable (D : FloatingDirective)

/-- The variables of `vsnprintf` after the specification. -/
def directiveOf : Directive where
  flags :=
    { left := D.leftJustified
      plus := .plus ∈ D.flags
      space := .space ∈ D.flags
      alternate := .alternate ∈ D.flags
      zero := .zero ∈ D.flags }
  width := |D.width.amount|
  precision := D.precision.elim (-1) Amount.amount
  modifier := .default
  conversion := D.conversion.character

/-- The prefix of the field: only a plus sign. -/
def plusSign : List UInt8 :=
  if .plus ∈ D.flags ∧ negative D.value = false then [chr '+'] else []

/-- A negative precision is as if there were none. -/
def hasPrecision : Bool := D.precision.any fun p => 0 ≤ p.amount

/-- The sign is a space. -/
def SpaceSigned : Prop :=
  negative D.value = false ∧ .plus ∉ D.flags ∧ .space ∈ D.flags

/-- The length of the field without padding. -/
def signedLength : ℕ := (D.sign ++ D.digits).length

/-- Where the field is the one of ISO C. -/
structure Supported : Prop where
  width_le : |D.width.amount| ≤ int32Max
  precision_le : ∀ p, D.precision = some p → p.amount ≤ int32Max
  space : SpaceSigned D → D.leftJustified = false ∧ signedLength D ≤ D.width.amount.natAbs ∧
    (.zero ∈ D.flags → hasPrecision D = true ∧ D.width.amount.natAbs = signedLength D)
  zero : ¬SpaceSigned D → .zero ∈ D.flags → D.leftJustified = false →
    D.width.amount.natAbs ≤ signedLength D ∨ hasPrecision D = false ∧ negative D.value = false

/-- The field that is printed is the one that ISO C wants. -/
def Conforms : Prop := Puts D.text D.arguments D.isoField

theorem fixedText_eq : D.fixedText = (if negative D.value then [chr '-'] else []) ++ D.digits ∧
    Magnitude D.digits := by
  obtain ⟨text, heq, hmagnitude⟩ := fixedDouble_eq D.value (D.precision.elim (-1) Amount.amount)
    (useExponent D.conversion.character D.value)
  have hdigits : D.digits = text := by
    unfold FloatingDirective.digits FloatingDirective.fixedText
    rw [heq]
    split_ifs <;> rfl
  rw [hdigits]
  exact ⟨heq, hmagnitude⟩

theorem fixedText_head : D.fixedText.head? ≠ some (chr '-') ↔ negative D.value = false := by
  obtain ⟨heq, ⟨c, tail, hdigits, -, hminus⟩, -⟩ := fixedText_eq D
  rw [heq, hdigits]
  cases negative D.value <;> simp [hminus]

theorem floatingField_eq :
    floatingField (directiveOf D) D.value = .field (plusSign D) D.fixedText := by
  have hfield : floatingField (directiveOf D) D.value = .field
      (if (directiveOf D).flags.plus ∧ D.fixedText.head? ≠ some (chr '-') then [chr '+'] else [])
      D.fixedText := rfl
  have hplus : ((directiveOf D).flags.plus : Prop) ↔ .plus ∈ D.flags := decide_eq_true_iff
  unfold plusSign
  simp only [hfield, hplus, fixedText_head]

theorem convert_directive (args : List Argument) :
    convert (directiveOf D) (.double D.value :: args) =
      some (.field (plusSign D) D.fixedText, args) := by
  rw [← floatingField_eq]
  have hconversion : (directiveOf D).conversion = D.conversion.character := rfl
  unfold convert
  rw [hconversion]
  cases D.conversion <;> rfl

theorem conversion_plain (c : FloatingConversion) : Plain c.character ∧ c.character ≠ chr '.' := by
  cases c <;> decide

theorem text_head (rest : List UInt8) : (D.text ++ rest).head? ≠ some (chr '%') := by
  unfold FloatingDirective.text
  simp only [List.append_assoc, List.singleton_append]
  exact specification_head (conversion_plain D.conversion).1

/-- The scan of a specification, but for the two amounts. -/
theorem scanDirective_unfold (rest : List UInt8) (args : List Argument) :
    scanDirective checkInt32 (D.text ++ rest) (D.arguments ++ args) =
      (checkInt32 |D.width.amount|).bind fun width =>
        (D.precision.elim (some (-1)) fun p => checkInt32 p.amount).map fun precision =>
          ({ directiveOf D with width, precision }, rest, .double D.value :: args) := by
  obtain ⟨hplain, hdot⟩ := conversion_plain D.conversion
  have hscan := @scanDirective_specification D.flags D.width D.precision _ rest D.width_head hplain
    hdot (.double D.value :: args)
  have hlength : scanLength (D.conversion.character :: rest) =
      (.default, D.conversion.character :: rest) := by
    cases D.conversion <;> rfl
  have hconversion : scanConversion (D.conversion.character :: rest) =
      (D.conversion.character, rest) := by
    cases D.conversion <;> rfl
  rw [hlength] at hscan
  dsimp only at hscan
  rw [hconversion] at hscan
  unfold FloatingDirective.text FloatingDirective.arguments
  simp only [List.append_assoc, List.singleton_append]
  exact hscan

end Directives

section Conformance

variable {D : FloatingDirective}

theorem signedLength_eq (D : FloatingDirective) : signedLength D = D.sign.length + D.digits.length :=
  List.length_append

theorem sign_length_le (D : FloatingDirective) : D.sign.length ≤ 1 := by
  unfold FloatingDirective.sign
  split_ifs <;> decide

theorem signedLength_le (D : FloatingDirective) : signedLength D ≤ 161 := by
  have hsign := sign_length_le D
  have hdigits := (fixedText_eq D).2.length_le
  rw [signedLength_eq]
  omega

theorem precision_neg (D : FloatingDirective) :
    (directiveOf D).precision < 0 ↔ hasPrecision D = false := by
  have hprecision : (directiveOf D).precision = D.precision.elim (-1) Amount.amount := rfl
  rw [hprecision]
  unfold hasPrecision
  cases D.precision with
  | none => simp
  | some p => simp

theorem zeroCount_floating (D : FloatingDirective) (length : ℕ) :
    zeroCount (directiveOf D) length = 0 := by
  have hfloating : isFloating (directiveOf D).conversion := by
    have hall : ∀ c : FloatingConversion, isFloating c.character := by
      intro c
      cases c <;> decide
    exact hall D.conversion
  exact if_neg fun h => h.2.1 hfloating

theorem plusSign_length_le (D : FloatingDirective) : (plusSign D).length ≤ 1 := by
  unfold plusSign
  split_ifs <;> decide

theorem fixedText_length_le (D : FloatingDirective) : D.fixedText.length ≤ 161 := by
  obtain ⟨heq, hmagnitude⟩ := fixedText_eq D
  have hdigits := hmagnitude.length_le
  rw [heq]
  split_ifs <;> simp only [List.length_append, List.length_cons, List.length_nil] <;> omega

/-- What `vsnprintf` prints of the prefix and the text. -/
theorem convertedText_eq (hwidth : |D.width.amount| ≤ int32Max) :
    convertedText (directiveOf D) (.field (plusSign D) D.fixedText) =
      some (layout D.leftJustified (.zero ∈ D.flags ∧ hasPrecision D = false)
        D.width.amount.natAbs (plusSign D) D.fixedText) := by
  have hplus := plusSign_length_le D
  have htext := fixedText_length_le D
  have hfield := fieldText_layout (directiveOf D) (abs_nonneg D.width.amount) hwidth
    (zeroCount_floating D D.fixedText.length) (show (plusSign D).length + 0 + _ < 2 ^ 31 by omega)
  have hwidth' : (directiveOf D).width.toNat = D.width.amount.natAbs := by
    rw [show (directiveOf D).width = |D.width.amount| from rfl, Int.abs_eq_natAbs,
      Int.toNat_natCast]
  rw [hwidth', List.replicate_zero, List.nil_append] at hfield
  simp only [precision_neg] at hfield
  unfold convertedText
  dsimp only
  rw [hfield]
  simp only [directiveOf, decide_eq_true_eq]

/-- The two fields where the sign is a space. -/
theorem fields_of_space (h : SpaceSigned D) : layout D.leftJustified
      (.zero ∈ D.flags ∧ hasPrecision D = false) D.width.amount.natAbs (plusSign D) D.fixedText =
        D.isoField ↔
    D.leftJustified = false ∧ signedLength D ≤ D.width.amount.natAbs ∧
      (.zero ∈ D.flags → hasPrecision D = true ∧ D.width.amount.natAbs = signedLength D) := by
  obtain ⟨hpositive, hplus, hspace⟩ := h
  obtain ⟨htext, ⟨c, tail, hdigits, hc, -⟩, -⟩ := fixedText_eq D
  have hplusSign : plusSign D = [] := if_neg fun h => hplus h.1
  have hsign : D.sign = [chr ' '] := by
    unfold FloatingDirective.sign
    rw [hpositive, if_neg (by decide), if_neg hplus, if_pos hspace]
  have hlength : signedLength D = D.digits.length + 1 := by
    rw [signedLength_eq, hsign, List.length_singleton, Nat.add_comm]
  rw [hpositive, if_neg (by decide), List.nil_append] at htext
  unfold FloatingDirective.isoField
  rw [hplusSign, htext, hsign, hlength, layout_space_iff (by rw [hdigits]; simpa using hc)
    (by rw [hdigits]; simp) (by simpa using fun hzero _ => hzero)]
  refine and_congr_right fun _ => and_congr_right fun _ => ?_
  cases hasPrecision D with
  | true => simp
  | false =>
    simp
    tauto

/-- The two fields where it is not. -/
theorem fields_of_sign (h : ¬SpaceSigned D) : layout D.leftJustified
      (.zero ∈ D.flags ∧ hasPrecision D = false) D.width.amount.natAbs (plusSign D) D.fixedText =
        D.isoField ↔
    (.zero ∈ D.flags → D.leftJustified = false → D.width.amount.natAbs ≤ signedLength D ∨
      hasPrecision D = false ∧ negative D.value = false) := by
  obtain ⟨htext, -⟩ := fixedText_eq D
  have hzeros : decide (.zero ∈ D.flags ∧ hasPrecision D = false) =
      (decide (.zero ∈ D.flags) && !hasPrecision D) := by
    cases hasPrecision D <;> simp
  unfold FloatingDirective.isoField
  rw [hzeros]
  cases hvalue : negative D.value with
  | true =>
    have hplusSign : plusSign D = [] := if_neg fun h => by simp [hvalue] at h
    have hsign : D.sign = [chr '-'] := by
      unfold FloatingDirective.sign
      rw [if_pos hvalue]
    rw [hvalue, if_pos rfl, List.singleton_append] at htext
    rw [hplusSign, htext, hsign, layouts_of_minus, signedLength_eq, hsign, List.length_singleton,
      Nat.add_comm 1]
    simp
  | false =>
    have hplusSign : plusSign D = D.sign := by
      unfold plusSign FloatingDirective.sign
      unfold SpaceSigned at h
      simp only [hvalue, true_and, not_and] at h
      by_cases hplus : .plus ∈ D.flags
      · simp [hvalue, hplus]
      · simp [hvalue, hplus, h hplus]
    have hsign : D.sign.head? ≠ some (chr ' ') := by
      rw [← hplusSign]
      unfold plusSign
      split_ifs <;> decide
    rw [hvalue, if_neg (by decide), List.nil_append] at htext
    rw [hplusSign, htext, layouts_of_prefix hsign]
    unfold signedLength
    simp

/-- Amounts that fit in an `int`: the padded text is what counts. -/
theorem conforms_iff_fields (hwidth : |D.width.amount| ≤ int32Max)
    (hprecision : ∀ p, D.precision = some p → p.amount ≤ int32Max) :
    Conforms D ↔ layout D.leftJustified (.zero ∈ D.flags ∧ hasPrecision D = false)
      D.width.amount.natAbs (plusSign D) D.fixedText = D.isoField := by
  have hscan : Scans D.text D.arguments (directiveOf D) (.field (plusSign D) D.fixedText) := by
    intro rest args
    rw [scanDirective_unfold]
    exact ⟨_, checkAmounts_fit (fun width precision => ({ directiveOf D with width, precision },
      rest, .double D.value :: args)) hwidth hprecision, convert_directive D args⟩
  have hnatAbs : D.width.amount.natAbs < 2 ^ 31 := by
    rw [Int.abs_eq_natAbs] at hwidth
    unfold int32Max at hwidth
    omega
  have hlength : D.isoField.length + 1 < 2 ^ 64 := by
    have hsigned := signedLength_le D
    unfold signedLength at hsigned
    unfold FloatingDirective.isoField
    rw [layout_length]
    omega
  have hbound : ∀ t, convertedText (directiveOf D) (.field (plusSign D) D.fixedText) = some t →
      t.length + 1 < 2 ^ 64 := by
    intro t ht
    have hplus := plusSign_length_le D
    have htext := fixedText_length_le D
    rw [convertedText_eq hwidth, Option.some.injEq] at ht
    rw [← ht, layout_length, List.length_append]
    omega
  unfold Conforms
  rw [puts_iff (text_head D) hscan hlength hbound, convertedText_eq hwidth, Option.some.injEq]

/-- The conversions conform exactly where they are supported. -/
theorem floating_conforms_iff (D : FloatingDirective) : Conforms D ↔ Supported D := by
  by_cases hfits : |D.width.amount| ≤ int32Max ∧ ∀ p, D.precision = some p → p.amount ≤ int32Max
  · obtain ⟨hwidth, hprecision⟩ := hfits
    rw [conforms_iff_fields hwidth hprecision]
    by_cases hspace : SpaceSigned D
    · rw [fields_of_space hspace]
      exact ⟨fun h => ⟨hwidth, hprecision, fun _ => h, fun hnot => absurd hspace hnot⟩,
        fun h => h.space hspace⟩
    · rw [fields_of_sign hspace]
      exact ⟨fun h => ⟨hwidth, hprecision, fun hs => absurd hs hspace, fun _ => h⟩,
        fun h => h.zero hspace⟩
  · refine iff_of_false (not_puts_of_overflow (text_head D) (fun rest args => ?_) _)
      fun h => hfits ⟨h.width_le, h.precision_le⟩
    rw [scanDirective_unfold]
    exact checkAmounts_overflow _ fun hwidth hprecision => hfits ⟨hwidth, hprecision⟩

/-- The flag `0` with a precision, in a field that is wider than any text. -/
theorem not_conforms_of_wide (hwidth : |D.width.amount| ≤ int32Max)
    (hprecision : ∀ p, D.precision = some p → p.amount ≤ int32Max) (hzero : .zero ∈ D.flags)
    (hspace : .space ∉ D.flags) (hleft : D.leftJustified = false)
    (hgiven : hasPrecision D = true) (hwide : 161 < D.width.amount.natAbs) : ¬Conforms D := by
  have hsign : ¬SpaceSigned D := fun h => hspace h.2.2
  rw [conforms_iff_fields hwidth hprecision, fields_of_sign hsign]
  intro h
  have hshort := signedLength_le D
  rcases h hzero hleft with hfits | ⟨hnone, -⟩
  · exact absurd (hfits.trans hshort) (Nat.not_le_of_lt hwide)
  · rw [hgiven] at hnone
    cases hnone

/-- `%0200.1f` is padded with spaces, because a precision is given. -/
theorem not_conforms_precision :
    ¬Conforms ⟨[.zero], .digits [2, 0, 0], some (.digits [1]), .f, 1.5, rfl⟩ := by
  refine not_conforms_of_wide (by decide) ?_ (by decide) (by decide) (by decide) (by decide)
    (by decide)
  rintro p ⟨⟩
  decide

end Conformance

end JsOs.FloatingConversions

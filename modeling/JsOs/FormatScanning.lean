import JsOs.IsoFormats

/-!
# Scanning an integer conversion

What `vsnprintf` makes of a specification that is written as ISO C has it. The only thing that can
go wrong is an overflow of the width or the precision.
-/

namespace JsOs.FormatScanning

open MachineWords FormatModel Numerals IsoFormats

variable {rest format : List UInt8} {args : List Argument}

section Characters

/-- A character that ends flags, widths and precisions. -/
def Plain (c : UInt8) : Prop := c ∉ ascii "-+ #0123456789*%"

instance (c : UInt8) : Decidable (Plain c) := inferInstanceAs (Decidable (c ∉ ascii _))

theorem decimalCharacter_bounds (d : Fin 10) :
    chr '0' ≤ decimalCharacter d ∧ decimalCharacter d ≤ chr '9' ∧
      ((decimalCharacter d).toNat : ℤ) - 48 = d := by
  revert d
  decide

theorem Plain.not_digit {c : UInt8} (h : Plain c) : ¬(chr '0' ≤ c ∧ c ≤ chr '9') := by
  intro hdigit
  have hlo : 48 ≤ c.toNat := UInt8.le_iff_toNat_le.mp hdigit.1
  have hhi : c.toNat ≤ 57 := UInt8.le_iff_toNat_le.mp hdigit.2
  have hall : ∀ k : ℕ, 48 ≤ k → k ≤ 57 → UInt8.ofNat k ∈ ascii "-+ #0123456789*%" := by
    intro k hlo hhi
    interval_cases k <;> decide
  refine h ?_
  rw [← UInt8.ofNat_toNat (x := c)]
  exact hall _ hlo hhi

theorem Plain.ne {c : UInt8} (h : Plain c) {c' : UInt8} (h' : ¬Plain c') : c ≠ c' :=
  fun heq => h' (heq ▸ h)

/-- What follows the width begins with a plain character. -/
theorem modifier_plain (m : Modifier) (c : Conversion) (rest : List UInt8) :
    ∃ c' tail, m.text ++ ([c.character] ++ rest) = c' :: tail ∧ Plain c' ∧ c' ≠ chr '.' := by
  cases m with
  | plain => cases c <;> exact ⟨_, _, rfl, by decide, by decide⟩
  | hh => exact ⟨_, _, rfl, by decide, by decide⟩
  | h => exact ⟨_, _, rfl, by decide, by decide⟩
  | l => exact ⟨_, _, rfl, by decide, by decide⟩
  | ll => exact ⟨_, _, rfl, by decide, by decide⟩
  | z => exact ⟨_, _, rfl, by decide, by decide⟩
  | t => exact ⟨_, _, rfl, by decide, by decide⟩
  | j => exact ⟨_, _, rfl, by decide, by decide⟩

end Characters

section Flags

/-- The flags, and those of a list. -/
def raise (flags : Flags) (fs : List Flag) : Flags where
  left := flags.left || decide (.minus ∈ fs)
  plus := flags.plus || decide (.plus ∈ fs)
  space := flags.space || decide (.space ∈ fs)
  alternate := flags.alternate || decide (.alternate ∈ fs)
  zero := flags.zero || decide (.zero ∈ fs)

theorem scanFlags_stop {flags : Flags} (h : ∀ c tail, format = c :: tail → c ∉ ascii "-+ #0") :
    scanFlags flags format = (flags, format) := by
  cases format with
  | nil => rfl
  | cons c tail =>
    have hc := h c tail rfl
    have hne {c' : UInt8} (h' : c' ∈ ascii "-+ #0") : c ≠ c' := fun heq => hc (heq ▸ h')
    simp only [scanFlags, hne (show chr '-' ∈ _ by decide), hne (show chr '+' ∈ _ by decide),
      hne (show chr ' ' ∈ _ by decide), hne (show chr '#' ∈ _ by decide),
      hne (show chr '0' ∈ _ by decide), if_false]

theorem scanFlags_character (flags : Flags) (f : Flag) (format : List UInt8) :
    scanFlags flags (f.character :: format) = scanFlags (raise flags [f]) format := by
  obtain ⟨left, plus, space, alternate, zero⟩ := flags
  cases f <;> simp [scanFlags, Flag.character, raise, chr]

theorem raise_raise (flags : Flags) (f : Flag) (fs : List Flag) :
    raise (raise flags [f]) fs = raise flags (f :: fs) := by
  simp [raise, Bool.or_assoc]

theorem scanFlags_text (flags : Flags) (fs : List Flag)
    (h : ∀ c tail, format = c :: tail → c ∉ ascii "-+ #0") :
    scanFlags flags (fs.map Flag.character ++ format) = (raise flags fs, format) := by
  induction fs generalizing flags with
  | nil =>
    rw [List.map_nil, List.nil_append, scanFlags_stop h]
    simp [raise]
  | cons f fs ih =>
    rw [List.map_cons, List.cons_append, scanFlags_character, ih, raise_raise]

end Flags

section Numbers

theorem scanNumber_stop {number : ℤ} {c : UInt8} {tail : List UInt8}
    (h : ¬(chr '0' ≤ c ∧ c ≤ chr '9')) :
    scanNumber checkInt32 number (c :: tail) = some (number, c :: tail) := by
  rw [scanNumber, if_neg h]

/-- Digits are scanned, or the number does not fit in an `int`; the invariant is that the number so
far fits. -/
theorem scanNumber_text (ds : List (Fin 10)) {number : ℕ} (hnumber : number < 2 ^ 31) {c : UInt8}
    (hc : ¬(chr '0' ≤ c ∧ c ≤ chr '9')) (tail : List UInt8) :
    scanNumber checkInt32 number (ds.map decimalCharacter ++ c :: tail) =
      (checkInt32 ((ds.map Fin.val).foldl (fun n d => n * 10 + d) number : ℕ)).map
        (·, c :: tail) := by
  have hgrow (ds : List (Fin 10)) (n : ℕ) : n ≤ (ds.map Fin.val).foldl (fun n d => n * 10 + d) n := by
    induction ds generalizing n with
    | nil => exact le_refl n
    | cons d ds ih =>
      rw [List.map_cons, List.foldl_cons]
      exact le_trans (by omega) (ih _)
  have hcheck {v : ℕ} (h : v < 2 ^ 31) : checkInt32 v = some (v : ℤ) :=
    if_pos ⟨by omega, by unfold int32Max; omega⟩
  have hfail {v : ℤ} (h : 2 ^ 31 ≤ v) : checkInt32 v = none :=
    if_neg fun hv => by
      have := hv.2
      unfold int32Max at this
      omega
  induction ds generalizing number with
  | nil =>
    rw [List.map_nil, List.nil_append, scanNumber_stop hc, List.map_nil, List.foldl_nil,
      hcheck hnumber]
    rfl
  | cons d ds ih =>
    obtain ⟨hlo, hhi, hvalue⟩ := decimalCharacter_bounds d
    rw [List.map_cons, List.cons_append, scanNumber, if_pos ⟨hlo, hhi⟩, hvalue, List.map_cons,
      List.foldl_cons]
    have hlarge := hgrow ds (number * 10 + d)
    by_cases hten : number * 10 < 2 ^ 31
    · have hcast : (number : ℤ) * 10 = (number * 10 : ℕ) := by push_cast; rfl
      rw [hcast, hcheck hten, Option.bind_some]
      by_cases hsum : number * 10 + d < 2 ^ 31
      · have hcast' : ((number * 10 : ℕ) : ℤ) + d = (number * 10 + d : ℕ) := by push_cast; rfl
        rw [hcast', hcheck hsum, Option.bind_some]
        exact ih hsum
      · rw [hfail (by omega), Option.bind_none, hfail (by omega), Option.map_none]
    · rw [hfail (by omega), Option.bind_none, hfail (by omega), Option.map_none]

end Numbers

section Amounts

variable {c : UInt8} {tail : List UInt8}

/-- Digits do not begin with an asterisk, nor does what follows them. -/
theorem digits_head (tail : List UInt8) (ds : List (Fin 10)) (hc : Plain c) :
    ∃ c' tail', ds.map decimalCharacter ++ c :: tail = c' :: tail' ∧ c' ≠ chr '*' := by
  cases ds with
  | nil => exact ⟨c, tail, rfl, hc.ne (by decide)⟩
  | cons d ds =>
    refine ⟨_, _, rfl, ?_⟩
    intro heq
    have h := (decimalCharacter_bounds d).1
    rw [heq] at h
    exact absurd h (by decide)

theorem scanWidth_text {flags : Flags} (width : Amount) (hc : Plain c) :
    scanWidth checkInt32 flags (width.text ++ c :: tail) (width.arguments ++ args) =
      (checkInt32 |width.amount|).map fun w =>
        (w, { flags with left := flags.left || decide (width.amount < 0) }, c :: tail, args) := by
  cases width with
  | digits ds =>
    have hnonneg : ¬((numeralValue 10 (ds.map Fin.val) : ℕ) : ℤ) < 0 := by omega
    have hplain : scanWidth checkInt32 flags (ds.map decimalCharacter ++ c :: tail) args =
        (scanNumber checkInt32 0 (ds.map decimalCharacter ++ c :: tail)).map fun x =>
          (x.1, flags, x.2, args) := by
      obtain ⟨c', tail', heq, hstar⟩ := digits_head tail ds hc
      rw [heq]
      exact if_neg hstar
    have hnumber := scanNumber_text ds (show 0 < 2 ^ 31 by decide) hc.not_digit tail
    simp only [Amount.text, Amount.arguments, Amount.amount, List.nil_append, hplain]
    rw [show scanNumber checkInt32 0 (ds.map decimalCharacter ++ c :: tail) = _ from hnumber]
    rw [abs_of_nonneg (Int.natCast_nonneg _), Option.map_map]
    simp only [hnonneg, decide_false, Bool.or_false]
    rfl
  | argument value =>
    simp only [Amount.text, Amount.arguments, Amount.amount, List.singleton_append]
    have hscan : scanWidth checkInt32 flags (chr '*' :: c :: tail) (.int value :: args) =
        if value.toInt < 0 then (checkInt32 (-value.toInt)).map fun width =>
          (width, { flags with left := true }, c :: tail, args)
        else some (value.toInt, flags, c :: tail, args) := rfl
    rw [hscan]
    have hlo := BitVec.le_toInt value
    have hhi := BitVec.toInt_lt (x := value)
    by_cases hneg : value.toInt < 0
    · rw [if_pos hneg, abs_of_neg hneg]
      simp [hneg]
    · have hfits : checkInt32 value.toInt = some value.toInt :=
        if_pos ⟨by omega, by unfold int32Max; omega⟩
      rw [if_neg hneg, abs_of_nonneg (by omega), hfits]
      simp [hneg]

theorem scanPrecision_text (precision : Option Amount) (hc : Plain c) (hdot : c ≠ chr '.') :
    scanPrecision checkInt32 ((precision.elim [] fun p => chr '.' :: p.text) ++ c :: tail)
        (precision.elim [] Amount.arguments ++ args) =
      (precision.elim (some (-1)) fun p => checkInt32 p.amount).map (·, c :: tail, args) := by
  cases precision with
  | none => exact if_neg hdot
  | some p =>
    cases p with
    | digits ds =>
      have hnumber := scanNumber_text ds (show 0 < 2 ^ 31 by decide) hc.not_digit tail
      have hplain :
          scanPrecision checkInt32 (chr '.' :: (ds.map decimalCharacter ++ c :: tail)) args =
            (scanNumber checkInt32 0 (ds.map decimalCharacter ++ c :: tail)).map fun x =>
              (x.1, x.2, args) := by
        obtain ⟨c', tail', heq, hstar⟩ := digits_head tail ds hc
        rw [heq]
        exact if_neg hstar
      simp only [Option.elim_some, Amount.text, Amount.arguments, List.cons_append, List.nil_append,
        hplain]
      rw [show scanNumber checkInt32 0 (ds.map decimalCharacter ++ c :: tail) = _ from hnumber,
        Option.map_map]
      rfl
    | argument value =>
      have hlo := BitVec.le_toInt value
      have hhi := BitVec.toInt_lt (x := value)
      have hfits : checkInt32 value.toInt = some value.toInt :=
        if_pos ⟨by omega, by unfold int32Max; omega⟩
      simp only [Option.elim_some, Amount.amount, hfits, Option.map_some]
      rfl

/-- A width does not begin like a flag. -/
theorem width_head {width : Amount} (hwidth : width.startsWithZero = false) (hc : Plain c)
    {c' : UInt8} {tail' : List UInt8} (heq : width.text ++ c :: tail = c' :: tail') :
    c' ∉ ascii "-+ #0" := by
  have hplain (hc : Plain c) : c ∉ ascii "-+ #0" := by
    intro h
    have hsplit : ascii "-+ #0123456789*%" = ascii "-+ #0" ++ ascii "123456789*%" := rfl
    refine hc ?_
    rw [hsplit]
    exact List.mem_append_left _ h
  cases width with
  | digits ds =>
    cases ds with
    | nil =>
      cases heq
      exact hplain hc
    | cons d ds =>
      cases heq
      have hd : d ≠ 0 := by
        rintro rfl
        exact absurd hwidth (by simp [Amount.startsWithZero])
      have hdigit : ∀ d : Fin 10, d ≠ 0 → decimalCharacter d ∉ ascii "-+ #0" := by decide
      exact hdigit d hd
  | argument value =>
    cases heq
    decide

end Amounts

section Specifications

variable {fs : List Flag} {width : Amount} {precision : Option Amount} {c : UInt8}
variable {tail : List UInt8}

theorem amount_ge (a : Amount) : -2 ^ 31 ≤ a.amount := by
  cases a with
  | digits ds => exact le_trans (by decide) (Int.natCast_nonneg _)
  | argument value => exact BitVec.le_toInt value

theorem checkInt32_eq_none {v : ℤ} (h : int32Max < v) : checkInt32 v = none :=
  if_neg fun hv => absurd hv.2 (not_le.mpr h)

/-- No specification begins with a second percent sign. -/
theorem specification_head (hc : Plain c) :
    (fs.map Flag.character ++ (width.text ++ ((precision.elim [] fun p => chr '.' :: p.text) ++
      c :: tail))).head? ≠ some (chr '%') := by
  cases fs with
  | nil =>
    cases width with
    | digits ds =>
      cases ds with
      | nil =>
        cases precision with
        | none => simpa [Amount.text] using hc.ne (show ¬Plain (chr '%') by decide)
        | some p => simp [Amount.text, chr]
      | cons d ds =>
        have hdigit : ∀ d : Fin 10, decimalCharacter d ≠ chr '%' := by decide
        simpa [Amount.text] using hdigit d
    | argument value => simp [Amount.text, chr]
  | cons f fs => cases f <;> simp [Flag.character, chr]

/-- The scan of flags, width and precision, whatever comes behind. -/
theorem scanDirective_specification (hhead : width.startsWithZero = false) (hc : Plain c)
    (hdot : c ≠ chr '.') (args : List Argument) :
    scanDirective checkInt32 (fs.map Flag.character ++ (width.text ++
        ((precision.elim [] fun p => chr '.' :: p.text) ++ c :: tail)))
      (width.arguments ++ (precision.elim [] Amount.arguments ++ args)) =
      (checkInt32 |width.amount|).bind fun w =>
        (precision.elim (some (-1)) fun p => checkInt32 p.amount).map fun p =>
          (⟨⟨decide (.minus ∈ fs ∨ width.amount < 0), .plus ∈ fs, .space ∈ fs, .alternate ∈ fs,
              .zero ∈ fs⟩, w, p, (scanLength (c :: tail)).1,
            (scanConversion (scanLength (c :: tail)).2).1⟩,
            (scanConversion (scanLength (c :: tail)).2).2, args) := by
  have hflags : ∀ c' tail', width.text ++ ((precision.elim [] fun p => chr '.' :: p.text) ++
      c :: tail) = c' :: tail' → c' ∉ ascii "-+ #0" := by
    intro c' tail' heq
    cases precision with
    | none => exact width_head hhead hc heq
    | some p => exact width_head hhead (show Plain (chr '.') by decide) heq
  have hwidth (flags : Flags) (args : List Argument) : scanWidth checkInt32 flags
      (width.text ++ ((precision.elim [] fun p => chr '.' :: p.text) ++ c :: tail))
      (width.arguments ++ args) =
        (checkInt32 |width.amount|).map fun w =>
          (w, { flags with left := flags.left || decide (width.amount < 0) },
            (precision.elim [] fun p => chr '.' :: p.text) ++ c :: tail, args) := by
    cases precision with
    | none => exact scanWidth_text width hc
    | some p => exact scanWidth_text width (show Plain (chr '.') by decide)
  unfold scanDirective
  rw [scanFlags_text _ _ hflags]
  dsimp only
  rw [hwidth, Option.bind_map]
  congr 1
  funext w
  simp only [Function.comp_apply]
  rw [scanPrecision_text precision hc hdot, Option.map_map]
  congr 1
  funext p
  simp [raise]

/-- Amounts that fit in an `int` are what is scanned. -/
theorem checkAmounts_fit {β : Type} (f : ℤ → ℤ → β) (hwidth : |width.amount| ≤ int32Max)
    (hprecision : ∀ p, precision = some p → p.amount ≤ int32Max) :
    ((checkInt32 |width.amount|).bind fun w =>
      (precision.elim (some (-1)) fun p => checkInt32 p.amount).map (f w)) =
        some (f |width.amount| (precision.elim (-1) Amount.amount)) := by
  have hcheck : checkInt32 |width.amount| = some |width.amount| :=
    if_pos ⟨le_trans (by decide) (abs_nonneg _), hwidth⟩
  have hcheck' : (precision.elim (some (-1)) fun p => checkInt32 p.amount) =
      some (precision.elim (-1) Amount.amount) := by
    cases h : precision with
    | none => rfl
    | some p => exact if_pos ⟨amount_ge p, hprecision p h⟩
  rw [hcheck, hcheck']
  rfl

/-- Others overflow. -/
theorem checkAmounts_overflow {β : Type} (f : ℤ → ℤ → β)
    (h : |width.amount| ≤ int32Max → ¬∀ p, precision = some p → p.amount ≤ int32Max) :
    ((checkInt32 |width.amount|).bind fun w =>
      (precision.elim (some (-1)) fun p => checkInt32 p.amount).map (f w)) = none := by
  by_cases hwidth : |width.amount| ≤ int32Max
  · have hlarge := h hwidth
    simp only [not_forall, not_le] at hlarge
    obtain ⟨p, rfl, hlarge⟩ := hlarge
    rw [Option.elim_some, checkInt32_eq_none hlarge]
    exact Option.bind_fun_none _
  · rw [checkInt32_eq_none (not_le.mp hwidth), Option.bind_none]

end Specifications

section Directives

variable (D : IntegerDirective)

def lengthModifier : Modifier → LengthModifier
  | .plain => .default
  | .hh => .default
  | .h => .default
  | .l => .long
  | .ll => .longLong
  | .z => .size
  | .t => .size
  | .j => .maximum

theorem scanLength_text (m : Modifier) (c : Conversion) (rest : List UInt8) :
    scanLength (m.text ++ ([c.character] ++ rest)) = (lengthModifier m, c.character :: rest) := by
  cases m with
  | plain => cases c <;> rfl
  | hh => rfl
  | h => cases c <;> rfl
  | l => cases c <;> rfl
  | ll => rfl
  | z => rfl
  | t => rfl
  | j => rfl

theorem scanConversion_text (c : Conversion) (rest : List UInt8) :
    scanConversion (c.character :: rest) = (c.character, rest) := by
  cases c <;> rfl

/-- The variables of `vsnprintf` after the specification. -/
def directiveOf : Directive where
  flags :=
    { left := D.leftJustified
      plus := .plus ∈ D.flags
      space := .space ∈ D.flags
      alternate := .alternate ∈ D.flags
      zero := .zero ∈ D.flags }
  width := |D.width.amount|
  precision := D.precision.elim (-1) Amount.amount
  modifier := lengthModifier D.modifier
  conversion := D.conversion.character

/-- Width and precision fit in an `int`, and so does the absolute value of a width. -/
structure Fits : Prop where
  width_le : |D.width.amount| ≤ int32Max
  precision_le : ∀ p, D.precision = some p → p.amount ≤ int32Max

/-- The scan of a specification, but for the two amounts. -/
theorem scanDirective_unfold (rest : List UInt8) (args : List Argument) :
    scanDirective checkInt32 (D.text ++ rest) (D.arguments ++ args) =
      (checkInt32 |D.width.amount|).bind fun width =>
        (D.precision.elim (some (-1)) fun p => checkInt32 p.amount).map fun precision =>
          ({ directiveOf D with width, precision }, rest, D.modifier.pass D.value :: args) := by
  obtain ⟨c, tail, hplain, hc, hdot⟩ := modifier_plain D.modifier D.conversion rest
  have hscan := @scanDirective_specification D.flags D.width D.precision c tail D.width_head hc hdot
    (D.modifier.pass D.value :: args)
  rw [← hplain, scanLength_text] at hscan
  dsimp only at hscan
  rw [scanConversion_text] at hscan
  unfold IntegerDirective.text IntegerDirective.arguments
  simp only [List.append_assoc]
  exact hscan

/-- A specification is scanned, or its width or precision overflows. -/
theorem scanDirective_text (hfits : Fits D) (rest : List UInt8) (args : List Argument) :
    scanDirective checkInt32 (D.text ++ rest) (D.arguments ++ args) =
      some (directiveOf D, rest, D.modifier.pass D.value :: args) := by
  rw [scanDirective_unfold]
  exact checkAmounts_fit (fun width precision => ({ directiveOf D with width, precision }, rest,
    D.modifier.pass D.value :: args)) hfits.width_le hfits.precision_le

theorem scanDirective_overflow (hfits : ¬Fits D) (rest : List UInt8) (args : List Argument) :
    scanDirective checkInt32 (D.text ++ rest) (D.arguments ++ args) = none := by
  rw [scanDirective_unfold]
  exact checkAmounts_overflow _ fun hwidth hprecision => hfits ⟨hwidth, hprecision⟩

end Directives

end JsOs.FormatScanning

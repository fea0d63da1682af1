import JsOs.FieldLayouts
import JsOs.FormatScanning
import JsOs.FormatTruncation

/-!
# The integer conversions of `vsnprintf`

The field that is printed and the one that ISO C wants differ at most in the number and in how many
zeros stand before it.
-/

namespace JsOs.IntegerConversions

open CountedLoops MachineWords FormatModel Numerals IsoFormats FormatScanning OutputSinks
open FormatTruncation FieldLayouts

section Digits

/-- The digits come out of the first loop the wrong way round. -/
theorem digitLoop_eq (alphabet : List UInt8) {base : ℕ} (hb : 1 < base) {n value : ℕ} (hn : n ≠ 0)
    (hvalue : value < base ^ n) : digitLoop alphabet value base n =
      (if value = 0 then [0] else Nat.digits base value).map (alphabet.getD · 0) := by
  induction n generalizing value with
  | zero => exact absurd rfl hn
  | succ n ih =>
    have hdiv : value / base < base ^ n := Nat.div_lt_of_lt_mul (by rwa [pow_succ'] at hvalue)
    unfold digitLoop
    dsimp only
    by_cases hmore : value / base = 0
    · have hlt : value < base := Nat.lt_of_div_eq_zero (by omega) hmore
      rw [if_neg (not_not.mpr hmore), Nat.mod_eq_of_lt hlt]
      by_cases hzero : value = 0
      · rw [if_pos hzero, hzero]
        rfl
      · rw [if_neg hzero, Nat.digits_of_lt base value hzero hlt]
        rfl
    · have hn' : n ≠ 0 := by
        rintro rfl
        exact hmore (Nat.lt_one_iff.mp hdiv)
      have hpos : value ≠ 0 := by
        rintro rfl
        exact hmore (Nat.zero_div base)
      rw [if_pos hmore, ih hn' hdiv, if_neg hmore, if_neg hpos,
        Nat.digits_def' hb (Nat.pos_of_ne_zero hpos), List.map_cons]

theorem swapBytes_length (output : List UInt8) (i j : ℕ) :
    (swapBytes output i j).length = output.length := by
  unfold swapBytes
  rw [List.length_set, List.length_set]

theorem getD_set (l : List UInt8) (i j : ℕ) (c : UInt8) (hi : i < l.length) :
    (l.set i c).getD j 0 = if j = i then c else l.getD j 0 := by
  by_cases h : j = i
  · subst h
    simp [hi]
  · rw [if_neg h, List.getD_eq_getElem?_getD, List.getElem?_set_ne (Ne.symm h),
      List.getD_eq_getElem?_getD]

/-- The bytes of `output` with the `i` outermost pairs exchanged. -/
def Exchanged (output : List UInt8) (i : ℕ) (t : List UInt8) : Prop :=
  t.length = output.length ∧ ∀ j < output.length, t.getD j 0 =
    output.getD (if j < i ∨ output.length - i ≤ j then output.length - 1 - j else j) 0

theorem Exchanged.swap {output t : List UInt8} {i : ℕ} (h : Exchanged output i t)
    (hi : i < output.length / 2) :
    Exchanged output (i + 1) (swapBytes t i (output.length - i - 1)) := by
  obtain ⟨hlength, ht⟩ := h
  refine ⟨(swapBytes_length t _ _).trans hlength, fun j hj => ?_⟩
  have hlast := ht (output.length - i - 1) (by omega)
  have hfirst := ht i (by omega)
  have hother := ht j hj
  rw [if_neg (by omega)] at hlast hfirst
  unfold swapBytes
  rw [getD_set _ _ _ _ (by rw [List.length_set]; omega), getD_set _ _ _ _ (by omega), hlast,
    hfirst, hother]
  by_cases h₁ : j = output.length - i - 1
  · rw [if_pos h₁, if_pos (by omega), h₁]
    congr 1
    omega
  · by_cases h₂ : j = i
    · rw [if_neg h₁, if_pos h₂, if_pos (by omega), h₂]
      congr 1
      omega
    · rw [if_neg h₁, if_neg h₂]
      congr 1
      split_ifs <;> omega

/-- The second loop reverses. -/
theorem reverse_loop (output : List UInt8) :
    forRange 0 (output.length / 2)
      (fun i t => swapBytes t i (output.length - i - 1)) output = output.reverse := by
  have hstart : Exchanged output 0 output :=
    ⟨rfl, fun j hj => by rw [if_neg (by omega)]⟩
  obtain ⟨hlength, hvalues⟩ : Exchanged output (output.length / 2) _ :=
    forRange_invariant (Exchanged output) (Nat.zero_le _) hstart fun i t _ hi h => h.swap hi
  apply List.ext_getElem
  · rw [hlength, List.length_reverse]
  · intro j h₁ h₂
    rw [List.length_reverse] at h₂
    have hvalue := hvalues j h₂
    rw [List.getD_eq_getElem _ _ h₁, List.getD_eq_getElem _ _ (by split_ifs <;> omega)] at hvalue
    rw [hvalue, List.getElem_reverse]
    congr 1
    split_ifs <;> omega

theorem unsignedDigits_eq {base value : ℕ} (hb : 2 ≤ base) (hvalue : value < 2 ^ 64)
    (uppercase : Bool) : unsignedDigits value base uppercase =
      (writtenDigits base value).map (digitCharacter uppercase) := by
  have hsmall : value < base ^ 64 := hvalue.trans_le (Nat.pow_le_pow_left hb 64)
  unfold unsignedDigits
  dsimp only
  rw [reverse_loop, digitLoop_eq _ hb (by decide) hsmall, ← List.map_reverse]
  by_cases h : value = 0
  · rw [if_pos h, h]
    rfl
  · rw [if_neg h, writtenDigits_of_ne h]
    rfl

end Digits

section Emission

/-- A printer of a text puts it through `sink_character`. -/
theorem foldl_appends {H : List UInt8 → FormatSink → Prop}
    (hchar : ∀ sink c, Appends H [c] sink (sinkCharacter sink c)) (text : List UInt8)
    (sink : FormatSink) : Appends H text sink (text.foldl sinkCharacter sink) := by
  induction text generalizing sink with
  | nil => exact .refl sink
  | cons c text ih => exact (hchar sink c).trans (ih _)

/-- What went through the sink, as a state of the sink. -/
def Emitted (sink : FormatSink) (text : List UInt8) (sink' : FormatSink) : Prop :=
  sink' = text.foldl sinkCharacter sink

theorem emitted_character (start sink : FormatSink) (c : UInt8) :
    Appends (Emitted start) [c] sink (sinkCharacter sink c) := by
  intro text hsink
  unfold Emitted at *
  rw [List.foldl_append, hsink]
  rfl

theorem printConverted_eq (d : Directive) (converted : Converted) (sink : FormatSink) :
    printConverted d converted sink =
      (convertedText d converted).map fun text => text.foldl sinkCharacter sink := by
  have hprints := printConverted_prints (emitted_character sink) d converted
  cases htext : convertedText d converted with
  | none =>
    rw [htext] at hprints
    exact hprints sink
  | some text =>
    rw [htext] at hprints
    obtain ⟨sink', hsink, happends⟩ := hprints sink
    rw [hsink, Option.map_some]
    exact congrArg some (happends [] rfl)

/-- Different texts make a difference to a large buffer. -/
theorem emit_injective {text text' : List UInt8} (hlength : text.length + 1 < 2 ^ 64)
    (hlength' : text'.length + 1 < 2 ^ 64)
    (h : ∀ sink, text.foldl sinkCharacter sink = text'.foldl sinkCharacter sink) : text = text' := by
  let size := text.length + text'.length + 2
  have hempty : Holds (fun _ => 0) 0 size [] ⟨fun _ => 0, 0, size, 0⟩ := fun _ => by
    rw [printed, List.take_nil, writeBytes_nil]
    rfl
  have hfirst := foldl_appends sinkCharacter_appends text _ [] hempty hlength
  have hsecond := foldl_appends sinkCharacter_appends text' _ [] hempty hlength'
  have hprinted : printed (fun _ => 0) 0 size text = printed (fun _ => 0) 0 size text' :=
    hfirst.symm.trans ((h _).trans hsecond)
  have hcount : text.length = text'.length := congrArg FormatSink.length hprinted
  have hmemory : writeBytes (fun _ => 0) 0 text = writeBytes (fun _ => 0) 0 text' := by
    have hmem := congrArg FormatSink.memory hprinted
    simp only [printed] at hmem
    rwa [List.take_of_length_le (show text.length ≤ size - 1 by omega),
      List.take_of_length_le (show text'.length ≤ size - 1 by omega)] at hmem
  calc text = ByteMemory.readBytes (writeBytes (fun _ => 0) 0 text) 0 text.length :=
        readBytes_writeBytes.symm
    _ = ByteMemory.readBytes (writeBytes (fun _ => 0) 0 text') 0 text'.length := by
        rw [hmemory, hcount]
    _ = text' := readBytes_writeBytes

end Emission

section Specifications

variable {specification text : List UInt8} {given : List Argument} {d : Directive}
variable {converted : Converted}

/-- The bytes of any specification, behind the percent sign, and its arguments. -/
def Puts (specification : List UInt8) (given : List Argument) (text : List UInt8) : Prop :=
  ∀ rest args sink, formatLoop (chr '%' :: (specification ++ rest)) (given ++ args) sink =
    formatLoop rest args (text.foldl sinkCharacter sink)

/-- The specification is scanned, and its argument converted. -/
def Scans (specification : List UInt8) (given : List Argument) (d : Directive)
    (converted : Converted) : Prop :=
  ∀ rest args, ∃ args', scanDirective checkInt32 (specification ++ rest) (given ++ args) =
    some (d, rest, args') ∧ convert d args' = some (converted, args)

theorem formatLoop_scans (hhead : ∀ rest, (specification ++ rest).head? ≠ some (chr '%'))
    (hscan : Scans specification given d converted) (rest : List UInt8) (args : List Argument)
    (sink : FormatSink) :
    formatLoop (chr '%' :: (specification ++ rest)) (given ++ args) sink =
      (convertedText d converted).bind fun text =>
        formatLoop rest args (text.foldl sinkCharacter sink) := by
  obtain ⟨args', hdirective, hconvert⟩ := hscan rest args
  rw [formatLoop_scan (by decide) (not_not.mpr rfl) (hhead rest), hdirective, Option.bind_some]
  dsimp only
  rw [hconvert, Option.bind_some]
  dsimp only
  rw [printConverted_eq, Option.bind_map]
  rfl

theorem not_puts_of_overflow (hhead : ∀ rest, (specification ++ rest).head? ≠ some (chr '%'))
    (hscan : ∀ rest args, scanDirective checkInt32 (specification ++ rest) (given ++ args) = none)
    (text : List UInt8) : ¬Puts specification given text := by
  intro h
  have hnone := h [] [] ⟨fun _ => 0, 0, 0, 0⟩
  rw [formatLoop_scan (by decide) (not_not.mpr rfl) (hhead []), hscan, Option.bind_none,
    formatLoop] at hnone
  cases hnone

theorem puts_iff (hhead : ∀ rest, (specification ++ rest).head? ≠ some (chr '%'))
    (hscan : Scans specification given d converted) (hlength : text.length + 1 < 2 ^ 64)
    (hbound : ∀ t, convertedText d converted = some t → t.length + 1 < 2 ^ 64) :
    Puts specification given text ↔ convertedText d converted = some text := by
  constructor
  · intro h
    have hall (sink : FormatSink) := h [] [] sink
    simp only [formatLoop_scans hhead hscan, formatLoop] at hall
    cases htext : convertedText d converted with
    | none =>
      have hnone := hall ⟨fun _ => 0, 0, 0, 0⟩
      rw [htext] at hnone
      cases hnone
    | some t =>
      rw [emit_injective (hbound t htext) hlength fun sink => ?_]
      have hsink := hall sink
      rw [htext] at hsink
      exact Option.some.inj hsink
  · intro h rest args sink
    rw [formatLoop_scans hhead hscan, h, Option.bind_some]

end Specifications

section Directives

variable (D : IntegerDirective)

/-- Wherever the specification stands in a format, it makes `vsnprintf` put the text through the
sink, and nothing else. -/
def Emits (text : List UInt8) : Prop :=
  ∀ rest args sink, formatLoop (chr '%' :: (D.text ++ rest)) (D.arguments ++ args) sink =
    formatLoop rest args (text.foldl sinkCharacter sink)

theorem text_head (rest : List UInt8) : (D.text ++ rest).head? ≠ some (chr '%') := by
  obtain ⟨c, tail, hplain, hc, -⟩ := modifier_plain D.modifier D.conversion rest
  unfold IntegerDirective.text
  simp only [List.append_assoc, hplain]
  exact specification_head hc

theorem not_emits_of_overflow (hfits : ¬Fits D) (text : List UInt8) : ¬Emits D text :=
  not_puts_of_overflow (text_head D) (scanDirective_overflow D hfits) text

theorem emits_iff_text (hfits : Fits D) {converted : Converted}
    (hconvert : ∀ args, convert (directiveOf D) (D.modifier.pass D.value :: args) =
      some (converted, args)) {text : List UInt8} (hlength : text.length + 1 < 2 ^ 64)
    (hbound : ∀ t, convertedText (directiveOf D) converted = some t → t.length + 1 < 2 ^ 64) :
    Emits D text ↔ convertedText (directiveOf D) converted = some text :=
  puts_iff (text_head D) (fun rest args => ⟨_, scanDirective_text D hfits rest args, hconvert args⟩)
    hlength hbound

end Directives

section Conversions

variable (D : IntegerDirective)

/-- The number that `vsnprintf` prints: the argument as it is passed. -/
def passedNumber : ℤ := if D.conversion.signed then D.value.toInt else D.value.toNat

/-- The zero that `#` puts before an octal number. -/
def octalZero (n : ℤ) : List UInt8 :=
  if D.conversion = .o ∧ .alternate ∈ D.flags ∧ n ≠ 0 then [chr '0'] else []

/-- The digits of a number, and 0 for zero. -/
def plainDigits (n : ℤ) : List UInt8 :=
  (if n = 0 then [0] else numeral D.conversion.base n.natAbs).map
    (digitCharacter (D.conversion = .X))

theorem bits_lt {w : ℕ} (hw : w ≤ 64) (v : BitVec w) :
    v.toNat < 2 ^ 64 ∧ v.toInt.natAbs < 2 ^ 64 := by
  have hpow : 2 ^ w ≤ 2 ^ 64 := Nat.pow_le_pow_right (by decide) hw
  have hlt := v.isLt
  rw [BitVec.toInt_eq_toNat_cond]
  split_ifs <;> omega

theorem argumentBits_le (m : Modifier) : m.argumentBits ≤ 64 := by
  cases m <;> decide

theorem valueBits_le (m : Modifier) : m.valueBits ≤ 64 := by
  cases m <;> decide

theorem takeSigned_pass (m : Modifier) (v : BitVec m.argumentBits) (args : List Argument) :
    takeSigned (lengthModifier m) (m.pass v :: args) = some (v.toInt, args) := by
  cases m <;> rfl

theorem takeUnsigned_pass (m : Modifier) (v : BitVec m.argumentBits) (args : List Argument) :
    takeUnsigned (lengthModifier m) (m.pass v :: args) = some (v.toNat, args) := by
  cases m <;> rfl

theorem plainDigits_eq {n : ℤ} (hn : n.natAbs < 2 ^ 64) :
    unsignedDigits n.natAbs D.conversion.base (D.conversion = .X) = plainDigits D n := by
  have hbase : 2 ≤ D.conversion.base := by cases D.conversion <;> decide
  rw [unsignedDigits_eq hbase hn]
  simp only [plainDigits, writtenDigits, Int.natAbs_eq_zero]

theorem signedField_eq (hsigned : D.conversion.signed = true) {n : ℤ} (hn : n.natAbs < 2 ^ 64) :
    signedField (directiveOf D).flags n = .field (D.sign n ++ octalZero D n) (plainDigits D n) := by
  obtain ⟨hconversion, hbase, hupper⟩ : D.conversion ≠ .o ∧ D.conversion.base = 10 ∧
      decide (D.conversion = .X) = false := by
    revert hsigned
    cases D.conversion <;> decide
  have hmagnitude : (if n < 0 then (-(n + 1)).toNat + 1 else n.toNat) = n.natAbs := by
    split_ifs <;> omega
  have hdigits := plainDigits_eq D hn
  rw [hbase, hupper] at hdigits
  unfold signedField
  dsimp only
  rw [hmagnitude, hdigits]
  simp [IntegerDirective.sign, hsigned, octalZero, hconversion, directiveOf]

theorem unsignedField_eq (hsigned : D.conversion.signed = false) (hdef : ¬D.Undefined) {n : ℕ}
    (hn : n < 2 ^ 64) : unsignedField (directiveOf D).flags D.conversion.character n =
      .field (D.sign n ++ octalZero D n) (plainDigits D n) := by
  rw [← plainDigits_eq D (show (n : ℤ).natAbs < 2 ^ 64 by rwa [Int.natAbs_natCast]),
    Int.natAbs_natCast]
  unfold unsignedField IntegerDirective.sign octalZero
  unfold IntegerDirective.Undefined at hdef
  cases h : D.conversion with
  | d =>
    rw [h] at hsigned
    exact absurd hsigned (by decide)
  | i =>
    rw [h] at hsigned
    exact absurd hsigned (by decide)
  | u =>
    have halternate : .alternate ∉ D.flags := fun hmem => hdef ⟨hmem, by rw [h]; rfl⟩
    simp [Conversion.character, Conversion.base, Conversion.signed, directiveOf, halternate, chr]
  | x => simp [Conversion.character, Conversion.base, Conversion.signed, directiveOf, chr]
  | X => simp [Conversion.character, Conversion.base, Conversion.signed, directiveOf, chr]
  | o => simp [Conversion.character, Conversion.base, Conversion.signed, directiveOf, chr]

/-- What the argument is turned into. -/
theorem convert_signed (hsigned : D.conversion.signed = true) (args : List Argument) :
    convert (directiveOf D) (D.modifier.pass D.value :: args) =
      some (.field (D.sign (passedNumber D) ++ octalZero D (passedNumber D))
        (plainDigits D (passedNumber D)), args) := by
  have hfield := signedField_eq D hsigned (bits_lt (argumentBits_le _) D.value).2
  have hpassed : passedNumber D = D.value.toInt := if_pos hsigned
  have hmodifier : (directiveOf D).modifier = lengthModifier D.modifier := rfl
  have hconversion : (directiveOf D).conversion = D.conversion.character := rfl
  unfold convert
  rw [hconversion, hmodifier, takeSigned_pass, Option.map_some, hpassed, ← hfield]
  cases h : D.conversion with
  | d => rfl
  | i => rfl
  | _ =>
    rw [h] at hsigned
    cases hsigned

theorem convert_unsigned (hsigned : D.conversion.signed = false) (hdef : ¬D.Undefined)
    (args : List Argument) :
    convert (directiveOf D) (D.modifier.pass D.value :: args) =
      some (.field (D.sign (passedNumber D) ++ octalZero D (passedNumber D))
        (plainDigits D (passedNumber D)), args) := by
  have hfield := unsignedField_eq D hsigned hdef (bits_lt (argumentBits_le _) D.value).1
  have hpassed : passedNumber D = (D.value.toNat : ℤ) := if_neg (by rw [hsigned]; decide)
  have hmodifier : (directiveOf D).modifier = lengthModifier D.modifier := rfl
  have hconversion : (directiveOf D).conversion = D.conversion.character := rfl
  unfold convert
  rw [hconversion, hmodifier, takeUnsigned_pass, Option.map_some, hpassed, ← hfield]
  cases h : D.conversion with
  | u => rfl
  | x => rfl
  | X => rfl
  | o => rfl
  | _ =>
    rw [h] at hsigned
    cases hsigned

theorem convert_directive (hdef : ¬D.Undefined) (args : List Argument) :
    convert (directiveOf D) (D.modifier.pass D.value :: args) =
      some (.field (D.sign (passedNumber D) ++ octalZero D (passedNumber D))
        (plainDigits D (passedNumber D)), args) := by
  cases hsigned : D.conversion.signed with
  | true => exact convert_signed D hsigned args
  | false => exact convert_unsigned D hsigned hdef args

end Conversions

section Fields

variable (d : Directive) {fieldPrefix temporary : List UInt8}

theorem zeroCount_eq (hconversion : ¬isFloating d.conversion) (length : ℕ) :
    zeroCount d length = d.precision.toNat - length := by
  unfold zeroCount
  simp only [hconversion, not_false_iff, true_and]
  split_ifs <;> omega

theorem fieldPadding_eq {width : ℤ} (hwidth : 0 ≤ width) (hwidth' : width ≤ int32Max) {length : ℕ}
    (hlength : length < 2 ^ 31) :
    fieldPadding width length = some ((width.toNat - length : ℕ) : ℤ) := by
  unfold int32Max at hwidth'
  unfold fieldPadding
  rw [toInt32_eq hlength]
  split_ifs with h
  · rw [show checkInt32 _ = some _ from if_pos ⟨by omega, by unfold int32Max; omega⟩]
    congr 1
    omega
  · congr 1
    omega

/-- A field whose length fits in an `int` is laid out with the zeros of the precision. -/
theorem fieldText_layout (hwidth : 0 ≤ d.width) (hwidth' : d.width ≤ int32Max) {zeros : ℕ}
    (hzeros : zeroCount d temporary.length = zeros)
    (hlength : fieldPrefix.length + zeros + temporary.length < 2 ^ 31) :
    fieldText d fieldPrefix temporary = some (layout d.flags.left
      (d.flags.zero ∧ d.precision < 0) d.width.toNat fieldPrefix
      (List.replicate zeros (chr '0') ++ temporary)) := by
  unfold fieldText
  simp only [hzeros]
  rw [fieldPadding_eq hwidth hwidth' hlength, toInt32_eq (show zeros < 2 ^ 31 by omega),
    Option.map_some]
  have hsum : (fieldPrefix ++ (List.replicate zeros (chr '0') ++ temporary)).length =
      fieldPrefix.length + zeros + temporary.length := by
    simp only [List.length_append, List.length_replicate]
    omega
  unfold layout
  simp only [hsum, Int.toNat_natCast, List.append_assoc]
  congr 1
  cases d.flags.left <;> cases d.flags.zero <;> by_cases h : d.precision < 0 <;>
    simp [h, not_le.mpr, not_lt.mp]

/-- A field whose length fits in an `int` is laid out as ISO C has it. -/
theorem fieldText_eq (hconversion : ¬isFloating d.conversion) (hwidth : 0 ≤ d.width)
    (hwidth' : d.width ≤ int32Max)
    (htotal : fieldPrefix.length + max d.precision.toNat temporary.length < 2 ^ 31) :
    fieldText d fieldPrefix temporary = some (layout d.flags.left
      (d.flags.zero ∧ d.precision < 0) d.width.toNat fieldPrefix
      (List.replicate (d.precision.toNat - temporary.length) (chr '0') ++ temporary)) :=
  fieldText_layout d hwidth hwidth' (zeroCount_eq d hconversion temporary.length) (by omega)

/-- A length that does not fit wraps to a negative number, so there is padding of about `2 ^ 32`
characters. -/
theorem fieldText_wraps (hconversion : ¬isFloating d.conversion) (hwidth : 0 ≤ d.width)
    (hprecision : d.precision ≤ int32Max) (hsmall : fieldPrefix.length + temporary.length < 2 ^ 30)
    (htotal : 2 ^ 31 ≤ fieldPrefix.length + max d.precision.toNat temporary.length)
    {text : List UInt8} (h : fieldText d fieldPrefix temporary = some text) :
    text.length = d.width.toNat + 2 ^ 32 ∧ text.length < 2 ^ 33 := by
  unfold int32Max at hprecision
  unfold fieldText fieldPadding at h
  simp only [zeroCount_eq d hconversion] at h
  generalize hzeros : d.precision.toNat - temporary.length = zeros at h
  have hneg : toInt32 (fieldPrefix.length + zeros + temporary.length) =
      (fieldPrefix.length + zeros + temporary.length : ℕ) - 2 ^ 32 := by
    unfold toInt32
    rw [if_neg (by omega)]
    omega
  have hkeep : toInt32 zeros = zeros := by
    unfold toInt32
    rw [if_pos (by omega)]
    omega
  rw [hneg, hkeep, if_pos (by omega)] at h
  obtain ⟨padding, hpadding, rfl⟩ := Option.map_eq_some_iff.mp h
  unfold checkInt32 int32Max at hpadding
  split_ifs at hpadding with hfits
  cases hpadding
  simp only [List.length_append, List.length_replicate, Int.toNat_natCast]
  cases d.flags.left <;> cases d.flags.zero <;> by_cases hnone : d.precision < 0 <;>
    simp only [hnone, Bool.not_true, Bool.not_false, Bool.false_eq_true, if_true, if_false,
      true_and, false_and, and_true, and_false, true_or, false_or, ge_iff_le,
      List.length_replicate, List.length_nil] <;>
    first | omega | (rw [if_pos (by omega)]; simp only [List.length_replicate]; omega)

end Fields

section Zeros

variable (D : IntegerDirective) {n : ℤ}

/-- The zeros that `vsnprintf` puts before a number. -/
def codeZeros (n : ℤ) : ℕ :=
  if n = 0 then max (D.digitCount.getD 0) 1
  else D.digitCount.getD 0 - (numeral D.conversion.base n.natAbs).length +
    if D.conversion = .o ∧ .alternate ∈ D.flags then 1 else 0

/-- The zeros that ISO C wants. -/
def isoZeros (n : ℤ) : ℕ :=
  let zeros := D.digitCount.getD 1 - (numeral D.conversion.base n.natAbs).length
  if D.conversion = .o ∧ .alternate ∈ D.flags ∧ zeros = 0 then 1 else zeros

theorem precision_toNat : (directiveOf D).precision.toNat = D.digitCount.getD 0 := by
  unfold directiveOf IntegerDirective.digitCount
  cases D.precision with
  | none => rfl
  | some p =>
    simp only [Option.elim_some, Option.bind_some]
    split_ifs with h
    · exact Int.toNat_of_nonpos h.le
    · rfl

theorem precision_neg : (directiveOf D).precision < 0 ↔ D.digitCount = none := by
  unfold directiveOf IntegerDirective.digitCount
  cases D.precision with
  | none => simp
  | some p => simp

theorem plainDigits_zero : plainDigits D 0 = [chr '0'] := by
  unfold plainDigits
  cases D.conversion <;> rfl

theorem plainDigits_of_ne_zero (hn : n ≠ 0) : plainDigits D n = padded D 0 n := by
  unfold plainDigits padded
  rw [if_neg hn, List.replicate_zero, List.nil_append]

theorem padded_zero (k : ℕ) : padded D k 0 = List.replicate k (chr '0') := by
  simp [padded]

theorem padded_length (k : ℕ) (n : ℤ) :
    (padded D k n).length = k + (numeral D.conversion.base n.natAbs).length := by
  simp [padded]

theorem replicate_padded (j k : ℕ) (n : ℤ) :
    List.replicate j (chr '0') ++ padded D k n = padded D (j + k) n := by
  unfold padded
  rw [← List.append_assoc, List.replicate_append_replicate]

/-- The zero of `#o` is one of the zeros before the number. -/
theorem layout_plainDigits (left zeros : Bool) (width : ℕ) (n : ℤ) :
    layout left zeros width (D.sign n ++ octalZero D n)
      (List.replicate (D.digitCount.getD 0 - (plainDigits D n).length) (chr '0') ++
        plainDigits D n) =
      layout left zeros width (D.sign n) (padded D (codeZeros D n) n) := by
  by_cases hn : n = 0
  · subst hn
    rw [plainDigits_zero, padded_zero, octalZero, if_neg fun h => h.2.2 rfl, List.append_nil,
      codeZeros, if_pos rfl, ← List.replicate_succ', List.length_singleton]
    congr 2
    omega
  · rw [plainDigits_of_ne_zero D hn, replicate_padded, padded_length, codeZeros, if_neg hn,
      Nat.zero_add, Nat.add_zero]
    by_cases ho : D.conversion = .o ∧ .alternate ∈ D.flags
    · have hsign : D.sign n = [] := by
        unfold IntegerDirective.sign
        rw [ho.1]
        rfl
      rw [octalZero, if_pos ⟨ho.1, ho.2, hn⟩, hsign, List.nil_append, layout_zero, if_pos ho,
        Nat.add_comm _ 1, ← replicate_padded]
      rfl
    · rw [octalZero, if_neg fun h => ho ⟨h.1, h.2.1⟩, List.append_nil, if_neg ho, Nat.add_zero]

theorem padded_head (n : ℤ) (k : ℕ) : (padded D k n).head? = some (chr '0') ↔ k ≠ 0 := by
  cases k with
  | succ k => simp [padded, List.replicate_succ]
  | zero =>
    simp only [ne_eq, not_true, iff_false]
    intro h
    rw [padded, List.replicate_zero, List.nil_append, List.head?_map,
      Option.map_eq_some_iff] at h
    obtain ⟨d, hd, hc⟩ := h
    exact numeral_head_ne_zero hd
      ((digitCharacter_eq_zero _ (mem_numeral_lt D (List.mem_of_head? hd))).mp hc)

theorem digits_eq (n : ℤ) : D.digits n = padded D (isoZeros D n) n := by
  have hpadded : D.digits n = if D.conversion = .o ∧ .alternate ∈ D.flags ∧
      (padded D (D.digitCount.getD 1 - (numeral D.conversion.base n.natAbs).length) n).head? ≠
        some (chr '0') then
      chr '0' :: padded D (D.digitCount.getD 1 - (numeral D.conversion.base n.natAbs).length) n
      else padded D (D.digitCount.getD 1 - (numeral D.conversion.base n.natAbs).length) n := by
    unfold IntegerDirective.digits padded
    simp only [List.length_map]
  rw [hpadded, isoZeros]
  simp only [ne_eq, padded_head, not_not]
  split_ifs with h
  · rw [h.2.2]
    rfl
  · rfl

/-- The two counts agree but for a zero without a digit, and for octal numbers that the precision
has already given a leading zero. -/
theorem codeZeros_eq_isoZeros : codeZeros D n = isoZeros D n ↔
    (n = 0 → D.digitCount = some 0 → D.conversion = .o ∧ .alternate ∈ D.flags) ∧
      (D.conversion = .o → .alternate ∈ D.flags → n ≠ 0 →
        D.digitCount.getD 0 ≤ (numeral D.conversion.base n.natAbs).length) := by
  unfold codeZeros isoZeros
  by_cases hn : n = 0
  · subst hn
    cases hcount : D.digitCount with
    | none => simp
    | some p =>
      by_cases ho : D.conversion = .o ∧ .alternate ∈ D.flags
      · simp [ho]
        grind
      · simp [ho]
        grind
  · have hpos : 0 < (numeral D.conversion.base n.natAbs).length :=
      List.length_pos_of_ne_nil (numeral_ne_nil (by omega))
    cases hcount : D.digitCount with
    | none =>
      simp only [Option.getD_none, hn, false_imp_iff, true_and]
      grind
    | some p =>
      simp only [Option.getD_some, hn, false_imp_iff, true_and]
      grind

end Zeros

end JsOs.IntegerConversions

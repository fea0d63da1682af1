import JsOs.FormatReading
import JsOs.FloatingConversions

/-!
# The local buffers of a conversion

No write of `unsigned_digits`, `fixed_double` or `vsnprintf` leaves its buffer: the conversions with
bounded buffers give what the conversions without bounds give.
-/

namespace JsOs.ConversionBuffers

open CountedLoops MachineWords FormatModel BoundedBuffers FormatReading Numerals IsoFormats
open IntegerConversions

section Digits

variable {base value capacity : ℕ}

theorem digitsIn_eq (alphabet : List UInt8) (hb : 1 < base) (hbase : base ≤ alphabet.length)
    {fuel : ℕ} (hfuel : fuel ≠ 0) (hvalue : value < base ^ fuel) {output : List UInt8}
    (hfits : output.length + (digitLoop alphabet value base fuel).length ≤ capacity) :
    digitsIn capacity alphabet base fuel value output =
      some (output ++ digitLoop alphabet value base fuel) := by
  induction fuel generalizing value output with
  | zero => exact absurd rfl hfuel
  | succ fuel ih =>
    have hdigit : value % base < alphabet.length :=
      (Nat.mod_lt value (Nat.zero_lt_of_lt hb)).trans_le hbase
    have hdiv : value / base < base ^ fuel :=
      Nat.div_lt_of_lt_mul (by rwa [pow_succ'] at hvalue)
    unfold digitLoop at hfits ⊢
    dsimp only at hfits ⊢
    rw [digitsIn, List.getElem?_eq_getElem hdigit, Option.bind_some]
    rw [List.getD_eq_getElem _ _ hdigit] at hfits ⊢
    by_cases hmore : value / base = 0
    · rw [if_neg (not_not.mpr hmore)] at hfits ⊢
      rw [List.length_singleton] at hfits
      rw [push_eq hfits, Option.bind_some, if_neg (not_not.mpr hmore)]
    · have hfuel' : fuel ≠ 0 := by
        rintro rfl
        exact hmore (Nat.lt_one_iff.mp hdiv)
      rw [if_pos hmore] at hfits ⊢
      rw [List.length_cons] at hfits
      rw [push_eq (by omega), Option.bind_some, if_pos hmore, ih hfuel' hdiv ?_, List.append_assoc,
        List.singleton_append]
      rw [List.length_append, List.length_singleton]
      omega

/-- Both indices of an exchange have been written. -/
theorem exchange_swapBytes {output : List UInt8} {i j : ℕ} (hi : i < output.length)
    (hj : j < output.length) : exchange output i j = some (swapBytes output i j) := by
  rw [exchange_eq hi hj]
  unfold swapBytes
  rw [List.getD_eq_getElem _ _ hi, List.getD_eq_getElem _ _ hj]

theorem exchange_loop (output : List UInt8) :
    forRangeM 0 (output.length / 2)
      (fun i t => exchange t i (t.length - i - 1)) output =
    some (forRange 0 (output.length / 2)
      (fun i t => swapBytes t i (output.length - i - 1)) output) := by
  refine forRangeM_total (fun t => t.length = output.length) rfl fun i t _ hi ht => ?_
  rw [ht]
  exact ⟨exchange_swapBytes (by omega) (by omega), (swapBytes_length t _ _).trans ht⟩

/-- The digits of a 64-bit value, in any base from 8 on. -/
theorem unsignedDigits_length_le (hb : 8 ≤ base) (hvalue : value < 2 ^ 64) (uppercase : Bool) :
    (unsignedDigits value base uppercase).length ≤ 22 := by
  have hsmall : value < base ^ 22 := by
    calc value < 2 ^ 64 := hvalue
      _ ≤ 8 ^ 22 := by decide
      _ ≤ base ^ 22 := Nat.pow_le_pow_left hb 22
  rw [unsignedDigits_eq (by omega) hvalue, List.length_map]
  exact writtenDigits_length_le (by omega) hsmall

theorem unsignedDigitsIn_eq (hb : 8 ≤ base) (hb' : base ≤ 16) (hvalue : value < 2 ^ 64)
    (uppercase : Bool) (hfits : (unsignedDigits value base uppercase).length ≤ capacity) :
    unsignedDigitsIn capacity value base uppercase = some (unsignedDigits value base uppercase) := by
  have halphabet : ∀ uppercase : Bool, (ascii (if uppercase then "0123456789ABCDEF"
      else "0123456789abcdef")).length = 16 := by decide
  have hsmall : value < base ^ 64 := hvalue.trans_le (Nat.pow_le_pow_left (by omega) 64)
  unfold unsignedDigits at hfits
  dsimp only at hfits
  rw [reverse_loop, List.length_reverse] at hfits
  unfold unsignedDigitsIn unsignedDigits
  dsimp only
  rw [digitsIn_eq _ (by omega) (hb'.trans_eq (halphabet uppercase).symm) (by decide) hsmall
    (by rwa [List.length_nil, Nat.zero_add]), Option.bind_some, List.nil_append, exchange_loop]

theorem unsignedDigitsIn_digits (hb : 8 ≤ base) (hb' : base ≤ 16) (hvalue : value < 2 ^ 64)
    (uppercase : Bool) :
    unsignedDigitsIn 32 value base uppercase = some (unsignedDigits value base uppercase) :=
  unsignedDigitsIn_eq hb hb' hvalue uppercase
    ((unsignedDigits_length_le hb hvalue uppercase).trans (by decide))

end Digits

section Doubles

theorem scaleDown_exponent (n : ℕ) (value : Float) (e : ℤ) :
    e ≤ (scaleDown n value e).2 ∧ (scaleDown n value e).2 ≤ e + n := by
  induction n generalizing value e with
  | zero => exact ⟨le_refl e, by rw [scaleDown]; omega⟩
  | succ n ih =>
    unfold scaleDown
    split_ifs
    · have hnext := ih (value / 10.0) (e + 1)
      omega
    · dsimp only
      omega

theorem scaleUp_exponent (n : ℕ) (value : Float) (e : ℤ) :
    e - n ≤ (scaleUp n value e).2 ∧ (scaleUp n value e).2 ≤ e := by
  induction n generalizing value e with
  | zero => exact ⟨by rw [scaleUp]; omega, le_refl e⟩
  | succ n ih =>
    unfold scaleUp
    split_ifs
    · have hnext := ih (value * 10.0) (e - 1)
      omega
    · dsimp only
      omega

/-- The variables `value` and `exponent` after the loops. -/
def scaled (exponentMode : Bool) (value : Float) : Float × ℤ :=
  if exponentMode ∧ value != 0.0 then
    scaleUp 616 (scaleDown 308 value 0).1 (scaleDown 308 value 0).2
  else (value, 0)

theorem scaled_exponent (exponentMode : Bool) (value : Float) :
    (scaled exponentMode value).2.natAbs < 1000 := by
  have hdown := scaleDown_exponent 308 value 0
  have hup := scaleUp_exponent 616 (scaleDown 308 value 0).1 (scaleDown 308 value 0).2
  unfold scaled
  split_ifs
  · omega
  · exact Nat.zero_lt_succ 999

theorem fractionIn_eq {capacity n : ℕ} (fraction : Float) {output : List UInt8}
    (hfits : output.length + n ≤ capacity) :
    fractionIn capacity n fraction output = some (output ++ fractionDigits n fraction) := by
  induction n generalizing fraction output with
  | zero => exact congrArg some (List.append_nil _).symm
  | succ n ih =>
    unfold fractionIn fractionDigits
    dsimp only
    rw [push_eq (by omega), Option.bind_some, ih, List.append_assoc, List.singleton_append]
    rw [List.length_append, List.length_singleton]
    omega

/-- The point and the digits behind it. -/
theorem fraction_in {precision : ℤ} (h : precision ≤ 12) (fraction : Float) {output : List UInt8}
    (hfits : output.length ≤ 80) :
    (if precision ≠ 0 then
      (push 96 output (chr '.')).bind (fractionIn 96 precision.toNat fraction)
    else some output) =
      some (output ++ if precision ≠ 0 then chr '.' :: fractionDigits precision.toNat fraction
        else []) := by
  split_ifs with hzero
  · rw [push_eq (by omega), Option.bind_some, fractionIn_eq, List.append_assoc,
      List.singleton_append]
    rw [List.length_append, List.length_singleton]
    omega
  · rw [List.append_nil]

theorem exponent_in {exponent : ℤ} (h : exponent.natAbs < 1000) (exponentMode : Bool)
    {output : List UInt8} (hfits : output.length ≤ 60) :
    (if exponentMode then
      (pushAll 96 output [chr 'e', if exponent < 0 then chr '-' else chr '+']).bind fun output =>
        (if exponent.natAbs < 10 then push 96 output (chr '0') else some output).bind fun output =>
          (unsignedDigitsIn (96 - output.length) exponent.natAbs 10 false).map (output ++ ·)
    else some output) =
      some (output ++ if exponentMode then
        [chr 'e', if exponent < 0 then chr '-' else chr '+'] ++
          (if exponent.natAbs < 10 then [chr '0'] else []) ++
          unsignedDigits exponent.natAbs 10 false
        else []) := by
  have hdigits := unsignedDigits_length_le (show 8 ≤ 10 by decide)
    (show exponent.natAbs < 2 ^ 64 by omega) false
  generalize (if exponent < 0 then chr '-' else chr '+') = sign
  split_ifs with hmode hsmall
  · rw [pushAll_eq (by simp; omega), Option.bind_some, push_eq (by simp; omega), Option.bind_some,
      unsignedDigitsIn_eq (by decide) (by decide) (by omega) _ (by simp; omega), Option.map_some]
    simp only [List.append_assoc]
  · rw [pushAll_eq (by simp; omega), Option.bind_some, Option.bind_some,
      unsignedDigitsIn_eq (by decide) (by decide) (by omega) _ (by simp; omega), Option.map_some]
    simp only [List.append_assoc, List.append_nil]
  · rw [List.append_nil]

/-- A text of at most 96 bytes is written. -/
theorem fixedDoubleIn_eq (value : Float) (precision : ℤ) (exponentMode : Bool) :
    fixedDoubleIn value precision exponentMode =
      some (fixedDouble value precision exponentMode) := by
  unfold fixedDoubleIn fixedDouble
  dsimp only
  rw [push_ite _ (by decide), List.nil_append, Option.bind_some]
  generalize hsign : (if value.toBits.toNat / 2 ^ 63 ≠ 0 then [chr '-'] else []) = sign
  have hsign' : sign.length ≤ 1 := by
    rw [← hsign]
    split_ifs <;> decide
  by_cases hspecial : value.toBits.toNat / 2 ^ 52 % 2 ^ 11 = 0x7ff
  · rw [if_pos hspecial, if_pos hspecial]
    apply pushAll_eq
    split_ifs
    · have hlength : (ascii "Infinity").length = 8 := by decide
      omega
    · have hlength : (ascii "NaN").length = 3 := by decide
      omega
  · rw [if_neg hspecial, if_neg hspecial]
    generalize (if value.toBits.toNat / 2 ^ 63 ≠ 0 then -value else value) = v
    have hexponent := scaled_exponent exponentMode v
    unfold scaled at hexponent
    generalize (if (exponentMode = true ∧ (v != 0.0) = true) then
      scaleUp 616 (scaleDown 308 v 0).1 (scaleDown 308 v 0).2 else (v, 0)) = pair at *
    generalize (if pair.1 > 18446744073709547520.0 then 18446744073709547520.0 else pair.1) = w
    generalize hprecision : (if (if precision < 0 then 6 else precision) > 12 then 12
      else if precision < 0 then 6 else precision) = p
    have hp : p ≤ 12 := by
      rw [← hprecision]
      split_ifs <;> omega
    have hdigits := unsignedDigits_length_le (show 8 ≤ 10 by decide) w.toUInt64.toNat_lt false
    have hlength : (sign ++ unsignedDigits w.toUInt64.toNat 10 false).length ≤ 23 := by
      rw [List.length_append]
      omega
    have hfraction : (if p ≠ 0 then chr '.' :: fractionDigits p.toNat (w - w.toUInt64.toFloat)
        else []).length ≤ 13 := FloatingConversions.fraction_length_le hp _
    rw [unsignedDigitsIn_digits (by decide) (by decide) w.toUInt64.toNat_lt, Option.bind_some,
      pushAll_eq (by omega), Option.bind_some, fraction_in hp _ (hlength.trans (by decide)),
      Option.bind_some, exponent_in hexponent]
    rw [List.length_append]
    omega

end Doubles

section Fields

/-- At most one sign is written to `prefix`. -/
theorem signedFieldIn_eq (flags : Flags) {value : ℤ} (h : value.natAbs ≤ 2 ^ 63) :
    signedFieldIn flags value = some (signedField flags value) := by
  have hmagnitude : (if value < 0 then (-(value + 1)).toNat + 1 else value.toNat) < 2 ^ 64 := by
    split_ifs <;> omega
  unfold signedFieldIn signedField
  dsimp only
  rw [unsignedDigitsIn_digits (by decide) (by decide) hmagnitude]
  simp only [Option.map_some]
  split_ifs <;> rfl

theorem unsignedFieldIn_eq (flags : Flags) (conversion : UInt8) {value : ℕ} (h : value < 2 ^ 64) :
    unsignedFieldIn flags conversion value = some (unsignedField flags conversion value) := by
  unfold unsignedFieldIn unsignedField
  dsimp only
  generalize hbase : (if conversion = chr 'o' then 8 else if conversion = chr 'u' then 10 else 16)
    = base
  have hbounds : 8 ≤ base ∧ base ≤ 16 := by
    rw [← hbase]
    split_ifs <;> omega
  rw [unsignedDigitsIn_digits hbounds.1 hbounds.2 h]
  simp only [Option.map_some]
  by_cases hprefix : flags.alternate ∧ value ≠ 0
  · rw [if_pos hprefix, if_pos hprefix, push_eq (by decide), Option.bind_some,
      push_ite _ (by decide)]
    rfl
  · rw [if_neg hprefix, if_neg hprefix]
    rfl

theorem pointerFieldIn_eq {address : ℕ} (h : address < 2 ^ 64) :
    pointerFieldIn address = some (.field (ascii "0x") (unsignedDigits address 16 false)) := by
  unfold pointerFieldIn
  rw [unsignedDigitsIn_digits (by decide) (by decide) h]
  rfl

theorem floatingFieldIn_eq (d : Directive) (value : Float) :
    floatingFieldIn d value = some (floatingField d value) := by
  unfold floatingFieldIn floatingField
  dsimp only
  rw [fixedDoubleIn_eq, Option.bind_some, push_ite _ (by decide), Option.map_some,
    List.nil_append]

theorem takeSigned_bound {modifier : LengthModifier} {args args' : List Argument} {value : ℤ}
    (h : takeSigned modifier args = some (value, args')) : value.natAbs ≤ 2 ^ 63 := by
  unfold takeSigned at h
  split at h
  · rename_i v args
    have hlow := v.le_toInt
    have hhigh := v.toInt_lt
    cases h
    omega
  · cases h
  · rename_i v args _
    have hlow := v.le_toInt
    have hhigh := v.toInt_lt
    cases h
    omega
  · cases h

theorem takeUnsigned_bound {modifier : LengthModifier} {args args' : List Argument} {value : ℕ}
    (h : takeUnsigned modifier args = some (value, args')) : value < 2 ^ 64 := by
  unfold takeUnsigned at h
  split at h
  · rename_i v args
    cases h
    exact v.isLt.trans (by decide)
  · cases h
  · rename_i v args _
    cases h
    exact v.isLt
  · cases h

/-- No conversion leaves its buffers. -/
theorem convertIn_eq (d : Directive) (args : List Argument) : convertIn d args = convert d args := by
  unfold convertIn convert
  split_ifs
  · rfl
  · exact (Option.map_eq_bind ..).symm
  · cases htaken : takeSigned d.modifier args with
    | none => rfl
    | some taken =>
      dsimp only [Option.bind_some]
      rw [signedFieldIn_eq d.flags (takeSigned_bound htaken)]
      rfl
  · cases htaken : takeUnsigned d.modifier args with
    | none => rfl
    | some taken =>
      dsimp only [Option.bind_some]
      rw [unsignedFieldIn_eq d.flags d.conversion (takeUnsigned_bound htaken)]
      rfl
  · cases args with
    | nil => rfl
    | cons a args =>
      cases a with
      | pointer address =>
        dsimp only
        rw [pointerFieldIn_eq address.isLt, Option.map_some]
      | _ => rfl
  · cases args with
    | nil => rfl
    | cons a args =>
      cases a with
      | double value =>
        dsimp only
        rw [floatingFieldIn_eq, Option.map_some]
      | _ => rfl
  · rfl

end Fields

end JsOs.ConversionBuffers

import JsOs.IntegerConversions

/-!
# Strings with a precision

A precision says how many bytes of an array may be read, and the array need not end with a NUL.
`vsnprintf` takes the length of the array with `strlen` before it looks at the precision.
-/

namespace JsOs.TextConversions

open MachineWords FormatModel IsoFormats FormatScanning FormatTruncation FieldLayouts
open IntegerConversions

/-- A specification `%.Ns` with its arguments; the array has `N` bytes. -/
structure TextDirective where
  flags : List Flag
  width : Amount
  precision : Amount
  bytes : List UInt8
  width_head : width.startsWithZero = false
  length_eq : precision.amount = bytes.length

namespace TextDirective

variable (D : TextDirective)

/-- What follows the percent sign. -/
def text : List UInt8 :=
  D.flags.map Flag.character ++ (D.width.text ++ (chr '.' :: D.precision.text ++ [chr 's']))

def arguments : List Argument :=
  D.width.arguments ++ (D.precision.arguments ++ [.string (some D.bytes)])

/-- Left-justified: by the flag, or by a negative width. -/
def leftJustified : Bool := .minus ∈ D.flags ∨ D.width.amount < 0

/-- The bytes before the first NUL, or all of them, and spaces. -/
def isoField : List UInt8 :=
  layout D.leftJustified false D.width.amount.natAbs [] (D.bytes.takeWhile (· ≠ 0))

/-- The field is printed, with no read outside the array. -/
def Conforms : Prop := Puts D.text D.arguments D.isoField

end TextDirective

section Lengths

variable {text : List UInt8}

theorem strlen_eq (h : 0 ∈ text) : strlen text = some (text.takeWhile (· ≠ 0)).length := by
  induction text with
  | nil => exact absurd h List.not_mem_nil
  | cons c text ih =>
    rw [strlen]
    by_cases hc : c = 0
    · rw [if_pos hc, List.takeWhile_cons_of_neg (by simpa using hc)]
      rfl
    · have hmem : 0 ∈ text := (List.mem_cons.mp h).resolve_left fun heq => hc heq.symm
      rw [if_neg hc, List.takeWhile_cons_of_pos (by simpa using hc), ih hmem]
      rfl

theorem strlen_eq_none (h : 0 ∉ text) : strlen text = none := by
  induction text with
  | nil => rfl
  | cons c text ih =>
    have hc : c ≠ 0 := fun heq => h (heq ▸ List.mem_cons_self)
    rw [strlen, if_neg hc, ih fun hmem => h (List.mem_cons_of_mem c hmem)]
    rfl

end Lengths

section Scanning

variable (D : TextDirective)

/-- The variables of `vsnprintf` after the specification. -/
def textDirective : Directive where
  flags :=
    { left := D.leftJustified
      plus := .plus ∈ D.flags
      space := .space ∈ D.flags
      alternate := .alternate ∈ D.flags
      zero := .zero ∈ D.flags }
  width := |D.width.amount|
  precision := D.precision.amount
  modifier := .default
  conversion := chr 's'

/-- Width and precision fit in an `int`. -/
structure FitsText : Prop where
  width_le : |D.width.amount| ≤ int32Max
  precision_le : D.precision.amount ≤ int32Max

theorem text_head (rest : List UInt8) : (D.text ++ rest).head? ≠ some (chr '%') := by
  have hhead := @specification_head D.flags D.width (some D.precision) (chr 's') rest (by decide)
  unfold TextDirective.text
  simp only [List.append_assoc, List.cons_append]
  exact hhead

theorem scanDirective_unfold (rest : List UInt8) (args : List Argument) :
    scanDirective checkInt32 (D.text ++ rest) (D.arguments ++ args) =
      (checkInt32 |D.width.amount|).bind fun width =>
        (checkInt32 D.precision.amount).map fun precision =>
          ({ textDirective D with width, precision }, rest, .string (some D.bytes) :: args) := by
  have hscan := @scanDirective_specification D.flags D.width (some D.precision) (chr 's') rest
    D.width_head (by decide) (by decide) (.string (some D.bytes) :: args)
  unfold TextDirective.text TextDirective.arguments
  simp only [List.append_assoc, List.cons_append]
  exact hscan

theorem scanDirective_text (hfits : FitsText D) (rest : List UInt8) (args : List Argument) :
    scanDirective checkInt32 (D.text ++ rest) (D.arguments ++ args) =
      some (textDirective D, rest, .string (some D.bytes) :: args) := by
  have hcheck {v : ℤ} (h : -2 ^ 31 ≤ v) (h' : v ≤ int32Max) : checkInt32 v = some v :=
    if_pos ⟨h, h'⟩
  rw [scanDirective_unfold, hcheck (le_trans (by decide) (abs_nonneg _)) hfits.width_le,
    Option.bind_some, hcheck (amount_ge D.precision) hfits.precision_le]
  rfl

theorem scanDirective_overflow (hfits : ¬FitsText D) (rest : List UInt8) (args : List Argument) :
    scanDirective checkInt32 (D.text ++ rest) (D.arguments ++ args) = none := by
  rw [scanDirective_unfold]
  by_cases hwidth : |D.width.amount| ≤ int32Max
  · have hprecision : int32Max < D.precision.amount := not_le.mp fun h => hfits ⟨hwidth, h⟩
    rw [checkInt32_eq_none hprecision]
    exact Option.bind_fun_none _
  · rw [checkInt32_eq_none (not_le.mp hwidth), Option.bind_none]

end Scanning

section Printing

variable {D : TextDirective}

/-- The precision does not cut a string that ends within the array. -/
theorem stringText_eq (hfits : FitsText D) (h : 0 ∈ D.bytes) :
    stringText (textDirective D) D.bytes = some D.isoField := by
  have hlength : (D.bytes.takeWhile (· ≠ 0)).length ≤ D.bytes.length :=
    (List.takeWhile_sublist _).length_le
  have hwidth := hfits.width_le
  have hprecision := hfits.precision_le
  have hbytes := D.length_eq
  unfold int32Max at hwidth hprecision
  have hkeep : stringLength (textDirective D).precision (D.bytes.takeWhile (· ≠ 0)).length =
      (D.bytes.takeWhile (· ≠ 0)).length := by
    unfold stringLength
    rw [if_neg]
    rintro ⟨-, hcut⟩
    change D.precision.amount.toNat < _ at hcut
    omega
  have htake : D.bytes.take (D.bytes.takeWhile (· ≠ 0)).length = D.bytes.takeWhile (· ≠ 0) :=
    (List.prefix_iff_eq_take.mp (List.takeWhile_prefix _)).symm
  have hpadding : fieldPadding (textDirective D).width (D.bytes.takeWhile (· ≠ 0)).length =
      some ((D.width.amount.natAbs - (D.bytes.takeWhile (· ≠ 0)).length : ℕ) : ℤ) := by
    have hpadding := @fieldPadding_eq |D.width.amount| (abs_nonneg _) hfits.width_le
      (D.bytes.takeWhile (· ≠ 0)).length (by omega)
    rwa [show |D.width.amount|.toNat = D.width.amount.natAbs by
      rw [Int.abs_eq_natAbs, Int.toNat_natCast]] at hpadding
  unfold stringText
  rw [strlen_eq h, Option.bind_some, hkeep, hpadding, Option.map_some, htake]
  unfold TextDirective.isoField layout
  simp only [textDirective, Int.toNat_natCast, List.nil_append, List.append_nil]
  by_cases hleft : D.leftJustified = true
  · simp [hleft]
  · simp [hleft]

/-- An array without a NUL is read to its end and beyond. -/
theorem stringText_eq_none (h : 0 ∉ D.bytes) : stringText (textDirective D) D.bytes = none := by
  unfold stringText
  rw [strlen_eq_none h, Option.bind_none]

theorem isoField_length_lt (hfits : FitsText D) : D.isoField.length + 1 < 2 ^ 64 := by
  have hlength : (D.bytes.takeWhile (· ≠ 0)).length ≤ D.bytes.length :=
    (List.takeWhile_sublist _).length_le
  have hwidth := hfits.width_le
  have hprecision := hfits.precision_le
  have hbytes := D.length_eq
  rw [Int.abs_eq_natAbs] at hwidth
  unfold int32Max at hwidth hprecision
  unfold TextDirective.isoField
  rw [layout_length, List.nil_append]
  omega

/-- A precision bounds what is read exactly where it need not: where a NUL stands within it, and
where neither the width nor the precision overflows. -/
theorem bounded_text_iff (D : TextDirective) :
    D.Conforms ↔ 0 ∈ D.bytes ∧ |D.width.amount| ≤ int32Max ∧ D.precision.amount ≤ int32Max := by
  unfold TextDirective.Conforms
  by_cases hfits : FitsText D
  · have hconvert (args : List Argument) : convert (textDirective D) (.string (some D.bytes) :: args) =
        some (.string (some D.bytes), args) := if_pos rfl
    have hbound (t : List UInt8) (ht : convertedText (textDirective D) (.string (some D.bytes)) =
        some t) : t.length + 1 < 2 ^ 64 := by
      change stringText (textDirective D) D.bytes = some t at ht
      by_cases hmem : 0 ∈ D.bytes
      · rw [stringText_eq hfits hmem] at ht
        rw [← Option.some.inj ht]
        exact isoField_length_lt hfits
      · rw [stringText_eq_none hmem] at ht
        cases ht
    rw [puts_iff (text_head D) (fun rest args => ⟨_, scanDirective_text D hfits rest args,
      hconvert args⟩) (isoField_length_lt hfits) hbound]
    change stringText (textDirective D) D.bytes = some D.isoField ↔ _
    constructor
    · intro htext
      refine ⟨?_, hfits.width_le, hfits.precision_le⟩
      by_contra hmem
      rw [stringText_eq_none hmem] at htext
      cases htext
    · rintro ⟨hmem, -⟩
      exact stringText_eq hfits hmem
  · refine ⟨fun h => absurd h ?_, fun h => absurd ⟨h.2.1, h.2.2⟩ hfits⟩
    exact not_puts_of_overflow (text_head D) (scanDirective_overflow D hfits) _

/-- `%.3s` reads the byte behind an array of three. -/
theorem not_conforms_unterminated : ¬TextDirective.Conforms
    ⟨[], .digits [], .digits [3], ascii "var", rfl, by decide⟩ := by
  intro h
  have hmem := ((bounded_text_iff _).mp h).1
  revert hmem
  decide

end Printing

end JsOs.TextConversions

import JsOs.ConversionBuffers

/-!
# The numerals of `unsigned_digits`

What `unsigned_digits` writes is a numeral in the base, without leading zeros, and there is one such
numeral of each number.
-/

namespace JsOs.CanonicalNumerals

open MachineWords FormatModel Numerals IsoFormats FieldLayouts FormatReading IntegerConversions
open ConversionBuffers

section Reading

/-- Read one more digit; a character that is no digit of the base has no value. -/
def readDigit (base n : ℕ) (c : UInt8) : Option ℕ :=
  (digitOf c).bind fun d => if d < base then some (n * base + d) else none

/-- The number that characters stand for, the most significant first. -/
def readNumeral (base : ℕ) (text : List UInt8) : Option ℕ := text.foldlM (readDigit base) 0

/-- A numeral of the value, without leading zeros. -/
structure Canonical (base value : ℕ) (uppercase : Bool) (text : List UInt8) : Prop where
  ne_nil : text ≠ []
  digits : ∀ c ∈ text, ∃ d, d < base ∧ c = digitCharacter uppercase d
  leading_zero : text.head? = some (chr '0') → value = 0 ∧ text = [chr '0']
  value_eq : readNumeral base text = some value

variable {base value d : ℕ} {uppercase : Bool} {text text' : List UInt8}

theorem readDigit_character (hbase : base ≤ 16) (hd : d < base) (n : ℕ) :
    readDigit base n (digitCharacter uppercase d) = some (n * base + d) := by
  unfold readDigit
  rw [digitOf_digitCharacter uppercase (hd.trans_le hbase), Option.bind_some, if_pos hd]

theorem readNumeral_digits (hbase : base ≤ 16) {ds : List ℕ} (h : ∀ d ∈ ds, d < base) :
    readNumeral base (ds.map (digitCharacter uppercase)) = some (numeralValue base ds) := by
  have hfrom (n : ℕ) : (ds.map (digitCharacter uppercase)).foldlM (readDigit base) n =
      some (ds.foldl (fun n d => n * base + d) n) := by
    induction ds generalizing n with
    | nil => rfl
    | cons d ds ih =>
      rw [List.map_cons, List.foldlM_cons, readDigit_character hbase (h d List.mem_cons_self)]
      exact ih (fun d hd => h d (List.mem_cons_of_mem _ hd)) _
  exact hfrom 0

/-- Characters that are digits come from numbers below the base. -/
theorem exists_digits (h : ∀ c ∈ text, ∃ d, d < base ∧ c = digitCharacter uppercase d) :
    ∃ ds : List ℕ, (∀ d ∈ ds, d < base) ∧ text = ds.map (digitCharacter uppercase) := by
  induction text with
  | nil => exact ⟨[], fun d hd => absurd hd List.not_mem_nil, rfl⟩
  | cons c text ih =>
    obtain ⟨d, hd, rfl⟩ := h c List.mem_cons_self
    obtain ⟨ds, hds, rfl⟩ := ih fun c hc => h c (List.mem_cons_of_mem _ hc)
    refine ⟨d :: ds, fun e he => ?_, rfl⟩
    cases he with
    | head => exact hd
    | tail _ he => exact hds e he

theorem canonical_written (hb : 1 < base) (hbase : base ≤ 16) (value : ℕ) (uppercase : Bool) :
    Canonical base value uppercase ((writtenDigits base value).map (digitCharacter uppercase)) where
  ne_nil := by simpa using writtenDigits_ne_nil base value
  digits c hc := by
    obtain ⟨d, hd, rfl⟩ := List.mem_map.mp hc
    exact ⟨d, lt_of_mem_writtenDigits hb hd, rfl⟩
  leading_zero h := by
    rw [List.head?_map, Option.map_eq_some_iff] at h
    obtain ⟨d, hd, hzero⟩ := h
    have hlt : d < base := lt_of_mem_writtenDigits hb (List.mem_of_head? hd)
    rw [(digitCharacter_eq_zero uppercase (hlt.trans_le hbase)).mp hzero] at hd
    have hvalue := eq_zero_of_writtenDigits_head hd
    subst hvalue
    refine ⟨rfl, ?_⟩
    cases uppercase <;> rfl
  value_eq := by
    rw [readNumeral_digits hbase fun d hd => lt_of_mem_writtenDigits hb hd,
      numeralValue_writtenDigits]

/-- The digits of the value, and no others. -/
theorem Canonical.eq_written (h : Canonical base value uppercase text) (hb : 1 < base)
    (hbase : base ≤ 16) : text = (writtenDigits base value).map (digitCharacter uppercase) := by
  obtain ⟨ds, hds, rfl⟩ := exists_digits h.digits
  have hvalue : numeralValue base ds = value :=
    Option.some.inj ((readNumeral_digits hbase hds).symm.trans h.value_eq)
  have hne : ds ≠ [] := by simpa using h.ne_nil
  have hhead : ds.head? = some 0 → ds = [0] := by
    intro hzero
    have hcharacter : (ds.map (digitCharacter uppercase)).head? = some (chr '0') := by
      rw [List.head?_map, hzero]
      cases uppercase <;> rfl
    have hlength := congrArg List.length (h.leading_zero hcharacter).2
    rw [List.length_map] at hlength
    obtain ⟨d, rfl⟩ := List.length_eq_one_iff.mp hlength
    exact congrArg (fun d => [d]) (Option.some.inj hzero)
  rw [← hvalue, writtenDigits_numeralValue hb hds hne hhead]

end Reading

section Writing

variable {base : ℕ}

/-- `unsigned_digits` comes to an end in every buffer that holds its text, and its text is the one
numeral of the value. It is never longer than 22 bytes, and no conversion leaves a buffer. -/
theorem unsignedDigits_canonical (value : BitVec 64) (uppercase : Bool) (hlow : 8 ≤ base)
    (hhigh : base ≤ 16) : ∃ text : List UInt8, 1 ≤ text.length ∧ text.length ≤ 22 ∧
      (∀ capacity, text.length ≤ capacity →
        unsignedDigitsIn capacity value.toNat base uppercase = some text) ∧
      Canonical base value.toNat uppercase text ∧
      (∀ text', Canonical base value.toNat uppercase text' → text' = text) ∧
      ∀ d args, convertIn d args = convert d args := by
  have hb : 1 < base := by omega
  have hwritten := unsignedDigits_eq hb value.isLt uppercase
  have hcanonical : Canonical base value.toNat uppercase
      (unsignedDigits value.toNat base uppercase) := by
    rw [hwritten]
    exact canonical_written hb hhigh value.toNat uppercase
  refine ⟨unsignedDigits value.toNat base uppercase, List.length_pos_of_ne_nil hcanonical.ne_nil,
    unsignedDigits_length_le hlow value.isLt uppercase,
    fun capacity hcapacity => unsignedDigitsIn_eq hlow hhigh value.isLt uppercase hcapacity,
    hcanonical, fun text' h => ?_, convertIn_eq⟩
  rw [h.eq_written hb hhigh, hwritten]

/-- The greatest value, in octal. -/
theorem unsignedDigits_canonical_octal : ∃ text : List UInt8, 1 ≤ text.length ∧ text.length ≤ 22 ∧
    (∀ capacity, text.length ≤ capacity →
      unsignedDigitsIn capacity (BitVec.allOnes 64).toNat 8 false = some text) ∧
    Canonical 8 (BitVec.allOnes 64).toNat false text ∧
    (∀ text', Canonical 8 (BitVec.allOnes 64).toNat false text' → text' = text) ∧
    ∀ d args, convertIn d args = convert d args :=
  unsignedDigits_canonical (BitVec.allOnes 64) false (by decide) (by decide)

example : unsignedDigits (2 ^ 64 - 1) 8 false = ascii "1777777777777777777777" := by decide

end Writing

end JsOs.CanonicalNumerals

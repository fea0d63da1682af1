import JsOs.ByteMemory
import JsOs.MachineWords

/-!
# Formatted output

`vsnprintf` of the kernel's libc. A format is its bytes without the terminating NUL, and the
argument list holds what `va_arg` finds; asked for another type, it has no result. A signed
operation that overflows has no result, and neither has a read behind a string.
-/

namespace JsOs.FormatModel

open CountedLoops ByteMemory MachineWords

structure FormatSink where
  memory : Memory
  buffer : ℕ
  capacity : ℕ
  length : ℕ

section Sink

variable (sink : FormatSink)

def sinkCharacter (character : UInt8) : FormatSink :=
  let sink :=
    if sink.capacity ≠ 0 ∧ add64 sink.length 1 < sink.capacity then
      { sink with memory := storeByte sink.memory (sink.buffer + sink.length) character }
    else sink
  { sink with length := add64 sink.length 1 }

def sinkRepeat (character : UInt8) (count : ℤ) : FormatSink :=
  forRange 0 count.toNat (fun _ sink => sinkCharacter sink character) sink

def sinkText (text : List UInt8) (length : ℕ) : Option FormatSink :=
  forRangeM 0 length (fun i sink => text[i]?.map (sinkCharacter sink)) sink

end Sink

section Numerals

/-- The first loop of `unsigned_digits`; a 64-bit value has at most as many digits. -/
def digitLoop (alphabet : List UInt8) (value base : ℕ) : ℕ → List UInt8
  | 0 => []
  | n + 1 =>
    let digit := alphabet.getD (value % base) 0
    if value / base ≠ 0 then digit :: digitLoop alphabet (value / base) base n else [digit]

def swapBytes (output : List UInt8) (i j : ℕ) : List UInt8 :=
  (output.set i (output.getD j 0)).set j (output.getD i 0)

def unsignedDigits (value base : ℕ) (uppercase : Bool) : List UInt8 :=
  let alphabet := ascii (if uppercase then "0123456789ABCDEF" else "0123456789abcdef")
  let output := digitLoop alphabet value base 64
  let length := output.length
  forRange 0 (length / 2) (fun i output => swapBytes output i (length - i - 1)) output

/-- The two loops of `fixed_double` for the exponent; the bound on the exponent is a bound on the
rounds. -/
def scaleDown : ℕ → Float → ℤ → Float × ℤ
  | 0, value, exponent => (value, exponent)
  | n + 1, value, exponent =>
    if value ≥ 10.0 ∧ exponent < 308 then scaleDown n (value / 10.0) (exponent + 1)
    else (value, exponent)

def scaleUp : ℕ → Float → ℤ → Float × ℤ
  | 0, value, exponent => (value, exponent)
  | n + 1, value, exponent =>
    if value < 1.0 ∧ exponent > -308 then scaleUp n (value * 10.0) (exponent - 1)
    else (value, exponent)

def fractionDigits : ℕ → Float → List UInt8
  | 0, _ => []
  | n + 1, fraction =>
    let fraction := fraction * 10.0
    let digit := fraction.toInt32.toInt
    (UInt8.ofInt (48 + digit)) :: fractionDigits n (fraction - Float.ofInt digit)

def fixedDouble (value : Float) (precision : ℤ) (exponentMode : Bool) : List UInt8 :=
  let bits := value.toBits.toNat
  let negative := bits / 2 ^ 63 ≠ 0
  let exponentBits := bits / 2 ^ 52 % 2 ^ 11
  let fractionBits := bits % 2 ^ 52
  let sign := if negative then [chr '-'] else []
  let value := if negative then -value else value
  if exponentBits = 0x7ff then sign ++ ascii (if fractionBits = 0 then "Infinity" else "NaN")
  else
    let (value, exponent) :=
      if exponentMode ∧ value != 0.0 then
        let (value, exponent) := scaleDown 308 value 0
        scaleUp 616 value exponent
      else (value, 0)
    let value := if value > 18446744073709547520.0 then 18446744073709547520.0 else value
    let integer := value.toUInt64
    let precision := if precision < 0 then 6 else precision
    let precision := if precision > 12 then 12 else precision
    let fraction :=
      if precision ≠ 0 then chr '.' :: fractionDigits precision.toNat (value - integer.toFloat)
      else []
    let exponentText :=
      if exponentMode then
        [chr 'e', if exponent < 0 then chr '-' else chr '+'] ++
          (if exponent.natAbs < 10 then [chr '0'] else []) ++
          unsignedDigits exponent.natAbs 10 false
      else []
    sign ++ unsignedDigits integer.toNat 10 false ++ fraction ++ exponentText

end Numerals

/-- The types that `va_arg` tells apart. -/
inductive Argument where
  | int (value : BitVec 32)
  | long (value : BitVec 64)
  | pointer (address : BitVec 64)
  | double (value : Float)
  /-- The readable bytes from a `char` pointer on, or `NULL`. -/
  | string (text : Option (List UInt8))

structure Flags where
  left : Bool
  plus : Bool
  space : Bool
  alternate : Bool
  zero : Bool
  deriving DecidableEq, Repr

inductive LengthModifier where
  | default
  | long
  | longLong
  | size
  | maximum
  deriving DecidableEq, Repr

structure Directive where
  flags : Flags
  width : ℤ
  precision : ℤ
  modifier : LengthModifier
  conversion : UInt8
  deriving DecidableEq, Repr

section Scanning

-- what a signed operation gives, from its mathematical result
variable (int : ℤ → Option ℤ)

def scanFlags (flags : Flags) : List UInt8 → Flags × List UInt8
  | [] => (flags, [])
  | c :: format =>
    if c = chr '-' then scanFlags { flags with left := true } format
    else if c = chr '+' then scanFlags { flags with plus := true } format
    else if c = chr ' ' then scanFlags { flags with space := true } format
    else if c = chr '#' then scanFlags { flags with alternate := true } format
    else if c = chr '0' then scanFlags { flags with zero := true } format
    else (flags, c :: format)

def scanNumber (number : ℤ) : List UInt8 → Option (ℤ × List UInt8)
  | [] => some (number, [])
  | c :: format =>
    if chr '0' ≤ c ∧ c ≤ chr '9' then
      (int (number * 10)).bind fun number =>
        (int (number + (c.toNat - 48))).bind fun number => scanNumber number format
    else some (number, c :: format)

def takeInt : List Argument → Option (ℤ × List Argument)
  | .int value :: args => some (value.toInt, args)
  | _ => none

/-- A negative width that is an argument means the left flag. -/
def scanWidth (flags : Flags) (format : List UInt8) (args : List Argument) :
    Option (ℤ × Flags × List UInt8 × List Argument) :=
  match format with
  | [] => some (0, flags, [], args)
  | c :: rest =>
    if c = chr '*' then
      (takeInt args).bind fun (width, args) =>
        if width < 0 then
          (int (-width)).map fun width => (width, { flags with left := true }, rest, args)
        else some (width, flags, rest, args)
    else (scanNumber int 0 (c :: rest)).map fun (width, format) => (width, flags, format, args)

def scanPrecision (format : List UInt8) (args : List Argument) :
    Option (ℤ × List UInt8 × List Argument) :=
  match format with
  | [] => some (-1, [], args)
  | c :: rest =>
    if c = chr '.' then
      match rest with
      | [] => some (0, [], args)
      | c :: rest =>
        if c = chr '*' then (takeInt args).map fun (precision, args) => (precision, rest, args)
        else (scanNumber int 0 (c :: rest)).map fun (precision, format) => (precision, format, args)
    else some (-1, c :: rest, args)

def scanLength (format : List UInt8) : LengthModifier × List UInt8 :=
  match format with
  | [] => (.default, [])
  | c :: rest =>
    if c = chr 'l' then
      match rest with
      | [] => (.long, [])
      | c :: rest => if c = chr 'l' then (.longLong, rest) else (.long, c :: rest)
    else if c = chr 'z' ∨ c = chr 't' then (.size, rest)
    else if c = chr 'j' then (.maximum, rest)
    else if c = chr 'h' then
      match rest with
      | [] => (.default, [])
      | c :: rest => if c = chr 'h' then (.default, rest) else (.default, c :: rest)
    else (.default, c :: rest)

def scanConversion : List UInt8 → UInt8 × List UInt8
  | [] => (0, [])
  | c :: format => if c = 0 then (0, c :: format) else (c, format)

/-- What follows a percent sign. -/
def scanDirective (format : List UInt8) (args : List Argument) :
    Option (Directive × List UInt8 × List Argument) :=
  let (flags, format) := scanFlags ⟨false, false, false, false, false⟩ format
  (scanWidth int flags format args).bind fun (width, flags, format, args) =>
    (scanPrecision int format args).map fun (precision, format, args) =>
      let (modifier, format) := scanLength format
      let (conversion, format) := scanConversion format
      (⟨flags, width, precision, modifier, conversion⟩, format, args)

end Scanning

/-- What an argument is turned into: a string, a prefix and digits, or nothing. -/
inductive Converted where
  | string (text : Option (List UInt8))
  | field (fieldPrefix temporary : List UInt8)
  | other

section Conversions

/-- Only `int` and types of 64 bits are told apart by the modifiers. -/
def takeSigned (modifier : LengthModifier) (args : List Argument) : Option (ℤ × List Argument) :=
  match modifier, args with
  | .default, .int value :: args => some (value.toInt, args)
  | .default, _ => none
  | _, .long value :: args => some (value.toInt, args)
  | _, _ => none

def takeUnsigned (modifier : LengthModifier) (args : List Argument) : Option (ℕ × List Argument) :=
  match modifier, args with
  | .default, .int value :: args => some (value.toNat, args)
  | .default, _ => none
  | _, .long value :: args => some (value.toNat, args)
  | _, _ => none

def signedField (flags : Flags) (value : ℤ) : Converted :=
  let fieldPrefix :=
    if value < 0 then [chr '-']
    else if flags.plus then [chr '+']
    else if flags.space then [chr ' ']
    else []
  let magnitude := if value < 0 then (-(value + 1)).toNat + 1 else value.toNat
  .field fieldPrefix (unsignedDigits magnitude 10 false)

def unsignedField (flags : Flags) (conversion : UInt8) (value : ℕ) : Converted :=
  let base := if conversion = chr 'o' then 8 else if conversion = chr 'u' then 10 else 16
  let fieldPrefix :=
    if flags.alternate ∧ value ≠ 0 then chr '0' :: (if base = 16 then [conversion] else []) else []
  .field fieldPrefix (unsignedDigits value base (conversion = chr 'X'))

def isFloating (conversion : UInt8) : Prop := conversion ∈ ascii "fFeEgG"

instance (conversion : UInt8) : Decidable (isFloating conversion) :=
  inferInstanceAs (Decidable (conversion ∈ ascii "fFeEgG"))

def floatingField (d : Directive) (value : Float) : Converted :=
  let useExponent := d.conversion = chr 'e' ∨ d.conversion = chr 'E' ∨
    (d.conversion = chr 'g' ∨ d.conversion = chr 'G') ∧
      (value ≥ 1000000.0 ∨ value ≤ -1000000.0 ∨
        value != 0.0 ∧ value < 0.0001 ∧ value > -0.0001)
  let temporary := fixedDouble value d.precision useExponent
  .field (if d.flags.plus ∧ temporary.head? ≠ some (chr '-') then [chr '+'] else []) temporary

def convert (d : Directive) (args : List Argument) : Option (Converted × List Argument) :=
  if d.conversion = chr 's' then
    match args with
    | .string text :: args => some (.string text, args)
    | _ => none
  else if d.conversion = chr 'c' then
    (takeInt args).map fun (value, args) => (.field [] [UInt8.ofInt value], args)
  else if d.conversion = chr 'd' ∨ d.conversion = chr 'i' then
    (takeSigned d.modifier args).map fun (value, args) => (signedField d.flags value, args)
  else if d.conversion ∈ ascii "uxXo" then
    (takeUnsigned d.modifier args).map fun (value, args) =>
      (unsignedField d.flags d.conversion value, args)
  else if d.conversion = chr 'p' then
    match args with
    | .pointer address :: args =>
      some (.field (ascii "0x") (unsignedDigits address.toNat 16 false), args)
    | _ => none
  else if isFloating d.conversion then
    match args with
    | .double value :: args => some (floatingField d value, args)
    | _ => none
  else some (.other, args)

end Conversions

section Printing

def strlen : List UInt8 → Option ℕ
  | [] => none
  | c :: text => if c = 0 then some 0 else (strlen text).map (· + 1)

/-- The variable `padding`. -/
def fieldPadding (width : ℤ) (length : ℕ) : Option ℤ :=
  if width > toInt32 length then checkInt32 (width - toInt32 length) else some 0

def stringLength (precision : ℤ) (length : ℕ) : ℕ :=
  if precision ≥ 0 ∧ precision.toNat < length then precision.toNat else length

def zeroCount (d : Directive) (length : ℕ) : ℕ :=
  if d.precision > 0 ∧ ¬isFloating d.conversion ∧ d.precision.toNat > length then
    d.precision.toNat - length
  else 0

def printString (d : Directive) (text : List UInt8) (sink : FormatSink) : Option FormatSink :=
  (strlen text).bind fun length =>
    let length := stringLength d.precision length
    (fieldPadding d.width length).bind fun padding =>
      let sink := if !d.flags.left then sinkRepeat sink (chr ' ') padding else sink
      (sinkText sink text length).map fun sink =>
        if d.flags.left then sinkRepeat sink (chr ' ') padding else sink

def printField (d : Directive) (fieldPrefix temporary : List UInt8) (sink : FormatSink) :
    Option FormatSink :=
  let zeros := zeroCount d temporary.length
  let total := fieldPrefix.length + zeros + temporary.length
  (fieldPadding d.width total).bind fun padding =>
    let sink :=
      if !d.flags.left ∧ (!d.flags.zero ∨ d.precision ≥ 0) then sinkRepeat sink (chr ' ') padding
      else sink
    (sinkText sink fieldPrefix fieldPrefix.length).bind fun sink =>
      let sink :=
        if !d.flags.left ∧ d.flags.zero ∧ d.precision < 0 then sinkRepeat sink (chr '0') padding
        else sink
      let sink := sinkRepeat sink (chr '0') (toInt32 zeros)
      (sinkText sink temporary temporary.length).map fun sink =>
        if d.flags.left then sinkRepeat sink (chr ' ') padding else sink

def printConverted (d : Directive) (converted : Converted) (sink : FormatSink) :
    Option FormatSink :=
  match converted with
  | .string text => printString d (text.getD (ascii "(null)" ++ [0])) sink
  | .field fieldPrefix temporary => printField d fieldPrefix temporary sink
  | .other => some (if d.conversion ≠ 0 then sinkCharacter sink d.conversion else sink)

end Printing

section Formats

variable {int : ℤ → Option ℤ} {format format' : List UInt8} {args args' : List Argument}

theorem scanFlags_length (flags : Flags) (format : List UInt8) :
    (scanFlags flags format).2.length ≤ format.length := by
  induction format generalizing flags with
  | nil => exact le_refl _
  | cons c format ih =>
    unfold scanFlags
    split_ifs
    all_goals first
      | exact Nat.le_succ_of_le (ih _)
      | exact le_refl _

theorem scanNumber_length {number number' : ℤ}
    (h : scanNumber int number format = some (number', format')) :
    format'.length ≤ format.length := by
  induction format generalizing number with
  | nil =>
    cases h
    exact le_refl _
  | cons c format ih =>
    unfold scanNumber at h
    split_ifs at h
    · obtain ⟨ten, -, h⟩ := Option.bind_eq_some_iff.mp h
      obtain ⟨sum, -, h⟩ := Option.bind_eq_some_iff.mp h
      exact Nat.le_succ_of_le (ih h)
    · cases h
      exact le_refl _

theorem scanWidth_length {flags flags' : Flags} {width : ℤ}
    (h : scanWidth int flags format args = some (width, flags', format', args')) :
    format'.length ≤ format.length := by
  cases format with
  | nil =>
    cases h
    exact le_refl _
  | cons c format =>
    unfold scanWidth at h
    dsimp only at h
    split_ifs at h
    · obtain ⟨⟨taken, rest⟩, -, h⟩ := Option.bind_eq_some_iff.mp h
      dsimp only at h
      split_ifs at h
      · obtain ⟨negated, -, h⟩ := Option.map_eq_some_iff.mp h
        cases h
        exact Nat.le_succ _
      · cases h
        exact Nat.le_succ _
    · obtain ⟨⟨number, rest⟩, hnumber, h⟩ := Option.map_eq_some_iff.mp h
      cases h
      exact scanNumber_length hnumber

theorem scanPrecision_length {precision : ℤ}
    (h : scanPrecision int format args = some (precision, format', args')) :
    format'.length ≤ format.length := by
  cases format with
  | nil =>
    cases h
    exact le_refl _
  | cons c format =>
    unfold scanPrecision at h
    dsimp only at h
    split_ifs at h
    · cases format with
      | nil =>
        cases h
        exact Nat.le_succ _
      | cons c format =>
        dsimp only at h
        split_ifs at h
        · obtain ⟨taken, -, h⟩ := Option.map_eq_some_iff.mp h
          cases h
          exact Nat.le_add_right _ 2
        · obtain ⟨⟨number, rest⟩, hnumber, h⟩ := Option.map_eq_some_iff.mp h
          cases h
          exact Nat.le_succ_of_le (scanNumber_length hnumber)
    · cases h
      exact le_refl _

theorem scanLength_length (format : List UInt8) : (scanLength format).2.length ≤ format.length := by
  cases format with
  | nil => exact le_refl _
  | cons c format =>
    unfold scanLength
    cases format with
    | nil =>
      dsimp only
      split_ifs <;> simp
    | cons c' format =>
      have htwo := Nat.le_add_right format.length 2
      dsimp only
      split_ifs <;> simp [htwo]

theorem scanConversion_length (format : List UInt8) :
    (scanConversion format).2.length ≤ format.length := by
  cases format with
  | nil => exact le_refl _
  | cons c format =>
    unfold scanConversion
    dsimp only
    split_ifs
    · exact le_refl _
    · exact Nat.le_succ _

theorem scanDirective_length {d : Directive}
    (h : scanDirective int format args = some (d, format', args')) :
    format'.length ≤ format.length := by
  unfold scanDirective at h
  obtain ⟨⟨width, flags, format₁, args₁⟩, hwidth, h⟩ := Option.bind_eq_some_iff.mp h
  obtain ⟨⟨precision, format₂, args₂⟩, hprecision, h⟩ := Option.map_eq_some_iff.mp h
  cases h
  calc (scanConversion (scanLength format₂).2).2.length ≤ (scanLength format₂).2.length :=
        scanConversion_length _
    _ ≤ format₂.length := scanLength_length _
    _ ≤ format₁.length := scanPrecision_length hprecision
    _ ≤ (scanFlags ⟨false, false, false, false, false⟩ format).2.length := scanWidth_length hwidth
    _ ≤ format.length := scanFlags_length _ _

/-- The loop of `vsnprintf`. -/
def formatLoop (format : List UInt8) (args : List Argument) (sink : FormatSink) :
    Option FormatSink :=
  match format with
  | [] => some sink
  | c :: format =>
    if c = 0 then some sink
    else if c ≠ chr '%' then formatLoop format args (sinkCharacter sink c)
    else if format.head? = some (chr '%') then
      formatLoop format.tail args (sinkCharacter sink (chr '%'))
    else match _h : scanDirective checkInt32 format args with
      | none => none
      | some (d, format, args) =>
        (convert d args).bind fun (converted, args) =>
          (printConverted d converted sink).bind fun sink => formatLoop format args sink
termination_by format.length
decreasing_by
  · exact Nat.lt_succ_self _
  · rw [List.length_tail, List.length_cons]
    omega
  · exact Nat.lt_succ_of_le (scanDirective_length _h)

/-- The returned number and the memory. -/
def vsnprintf (memory : Memory) (buffer size : ℕ) (format : List UInt8) (arguments : List Argument) :
    Option (ℤ × Memory) :=
  (formatLoop format arguments ⟨memory, buffer, size, 0⟩).map fun sink =>
    let memory :=
      if size ≠ 0 then
        let terminator := if sink.length < size then sink.length else size - 1
        storeByte sink.memory (buffer + terminator) 0
      else sink.memory
    (if (sink.length : ℤ) > int32Max then int32Max else sink.length, memory)

end Formats

end JsOs.FormatModel

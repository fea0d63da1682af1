import JsOs.BoundedBuffers
import JsOs.FormatModel

/-!
# How a format is read

`vsnprintf` byte by byte: `format` points into bytes that end with the NUL, and a read behind it is
undefined, as is a write outside a local buffer. What a signed overflow gives is not known; it is
some `int`.
-/

namespace JsOs.FormatReading

open CountedLoops MachineWords FormatModel BoundedBuffers

variable (overflow : ℤ → BitVec 32)

/-- A signed operation on `int`. -/
def signed (v : ℤ) : ℤ := (checkInt32 v).getD (overflow v).toInt

section Reading

/-- A signed operation with a result in any case. -/
def uncheckedInt32 (v : ℤ) : Option ℤ := some (signed overflow v)

/-- The format where it can be read. -/
def readable (format : List UInt8) : Option (List UInt8) :=
  if format = [] then none else some format

/-- What follows a percent sign. Each part of a directive ends before a byte that has been read, or
that the next part reads. -/
def readDirective (format : List UInt8) (args : List Argument) :
    Option (Directive × List UInt8 × List Argument) :=
  let (flags, format) := scanFlags ⟨false, false, false, false, false⟩ format
  (readable format).bind fun format =>
    (scanWidth (uncheckedInt32 overflow) flags format args).bind fun (width, flags, format, args) =>
      (readable format).bind fun format =>
        (scanPrecision (uncheckedInt32 overflow) format args).bind fun (precision, format, args) =>
          (readable format).bind fun format =>
            let (modifier, format) := scanLength format
            (readable format).map fun format =>
              let (conversion, format) := scanConversion format
              (⟨flags, width, precision, modifier, conversion⟩, format, args)

end Reading

section Buffers

/-- The first loop of `unsigned_digits`. -/
def digitsIn (capacity : ℕ) (alphabet : List UInt8) (base : ℕ) :
    ℕ → ℕ → List UInt8 → Option (List UInt8)
  | 0, _, _ => none
  | fuel + 1, value, output =>
    alphabet[value % base]?.bind fun digit =>
      (push capacity output digit).bind fun output =>
        if value / base ≠ 0 then digitsIn capacity alphabet base fuel (value / base) output
        else some output

def unsignedDigitsIn (capacity value base : ℕ) (uppercase : Bool) : Option (List UInt8) :=
  let alphabet := ascii (if uppercase then "0123456789ABCDEF" else "0123456789abcdef")
  (digitsIn capacity alphabet base 64 value []).bind fun output =>
    forRangeM 0 (output.length / 2)
      (fun i output => exchange output i (output.length - i - 1)) output

def fractionIn (capacity : ℕ) : ℕ → Float → List UInt8 → Option (List UInt8)
  | 0, _, output => some output
  | n + 1, fraction, output =>
    let fraction := fraction * 10.0
    let digit := fraction.toInt32.toInt
    (push capacity output (UInt8.ofInt (48 + digit))).bind
      (fractionIn capacity n (fraction - Float.ofInt digit))

/-- The buffer for the digits has 32 bytes, the one for the text 96 at least. -/
def fixedDoubleIn (value : Float) (precision : ℤ) (exponentMode : Bool) : Option (List UInt8) :=
  let bits := value.toBits.toNat
  let negative := bits / 2 ^ 63 ≠ 0
  let exponentBits := bits / 2 ^ 52 % 2 ^ 11
  let fractionBits := bits % 2 ^ 52
  (if negative then push 96 [] (chr '-') else some []).bind fun output =>
    let value := if negative then -value else value
    if exponentBits = 0x7ff then
      pushAll 96 output (ascii (if fractionBits = 0 then "Infinity" else "NaN"))
    else
      let (value, exponent) :=
        if exponentMode ∧ value != 0.0 then
          let (value, exponent) := scaleDown 308 value 0
          scaleUp 616 value exponent
        else (value, 0)
      let value := if value > 18446744073709547520.0 then 18446744073709547520.0 else value
      let integer := value.toUInt64
      (unsignedDigitsIn 32 integer.toNat 10 false).bind fun digits =>
        (pushAll 96 output digits).bind fun output =>
          let precision := if precision < 0 then 6 else precision
          let precision := if precision > 12 then 12 else precision
          (if precision ≠ 0 then
            (push 96 output (chr '.')).bind
              (fractionIn 96 precision.toNat (value - integer.toFloat))
          else some output).bind fun output =>
            if exponentMode then
              (pushAll 96 output [chr 'e', if exponent < 0 then chr '-' else chr '+']).bind
                fun output =>
                  (if exponent.natAbs < 10 then push 96 output (chr '0') else some output).bind
                    fun output =>
                      (unsignedDigitsIn (96 - output.length) exponent.natAbs 10 false).map
                        (output ++ ·)
            else some output

/-- The sign in `prefix`, of three bytes, and the digits in `temporary`; `unsigned_digits` takes no
more than 32 of its 128 bytes. -/
def signedFieldIn (flags : Flags) (value : ℤ) : Option Converted :=
  (if value < 0 then push 3 [] (chr '-')
    else if flags.plus then push 3 [] (chr '+')
    else if flags.space then push 3 [] (chr ' ')
    else some []).bind fun fieldPrefix =>
      let magnitude := if value < 0 then (-(value + 1)).toNat + 1 else value.toNat
      (unsignedDigitsIn 32 magnitude 10 false).map (.field fieldPrefix ·)

def unsignedFieldIn (flags : Flags) (conversion : UInt8) (value : ℕ) : Option Converted :=
  let base := if conversion = chr 'o' then 8 else if conversion = chr 'u' then 10 else 16
  (if flags.alternate ∧ value ≠ 0 then
      (push 3 [] (chr '0')).bind fun fieldPrefix =>
        if base = 16 then push 3 fieldPrefix conversion else some fieldPrefix
    else some []).bind fun fieldPrefix =>
      (unsignedDigitsIn 32 value base (conversion = chr 'X')).map (.field fieldPrefix ·)

def pointerFieldIn (address : ℕ) : Option Converted :=
  (pushAll 3 [] [chr '0', chr 'x']).bind fun fieldPrefix =>
    (unsignedDigitsIn 32 address 16 false).map (.field fieldPrefix ·)

def floatingFieldIn (d : Directive) (value : Float) : Option Converted :=
  let useExponent := d.conversion = chr 'e' ∨ d.conversion = chr 'E' ∨
    (d.conversion = chr 'g' ∨ d.conversion = chr 'G') ∧
      (value ≥ 1000000.0 ∨ value ≤ -1000000.0 ∨
        value != 0.0 ∧ value < 0.0001 ∧ value > -0.0001)
  (fixedDoubleIn value d.precision useExponent).bind fun temporary =>
    (if d.flags.plus ∧ temporary.head? ≠ some (chr '-') then push 3 [] (chr '+')
      else some []).map (.field · temporary)

def convertIn (d : Directive) (args : List Argument) : Option (Converted × List Argument) :=
  if d.conversion = chr 's' then
    match args with
    | .string text :: args => some (.string text, args)
    | _ => none
  else if d.conversion = chr 'c' then
    (takeInt args).bind fun (value, args) =>
      (push 128 [] (UInt8.ofInt value)).map fun temporary => (.field [] temporary, args)
  else if d.conversion = chr 'd' ∨ d.conversion = chr 'i' then
    (takeSigned d.modifier args).bind fun (value, args) =>
      (signedFieldIn d.flags value).map fun converted => (converted, args)
  else if d.conversion ∈ ascii "uxXo" then
    (takeUnsigned d.modifier args).bind fun (value, args) =>
      (unsignedFieldIn d.flags d.conversion value).map fun converted => (converted, args)
  else if d.conversion = chr 'p' then
    match args with
    | .pointer address :: args =>
      (pointerFieldIn address.toNat).map fun converted => (converted, args)
    | _ => none
  else if isFloating d.conversion then
    match args with
    | .double value :: args => (floatingFieldIn d value).map fun converted => (converted, args)
    | _ => none
  else some (.other, args)

end Buffers

section Printing

/-- The variable `padding`. -/
def paddingOf (width : ℤ) (length : ℕ) : ℤ :=
  if width > toInt32 length then signed overflow (width - toInt32 length) else 0

/-- What goes through `sink_character` for a string. -/
def putString (d : Directive) (text : List UInt8) : Option (List UInt8) :=
  (strlen text).map fun length =>
    let length := stringLength d.precision length
    let spaces := List.replicate (paddingOf overflow d.width length).toNat (chr ' ')
    (if !d.flags.left then spaces else []) ++ text.take length ++
      if d.flags.left then spaces else []

/-- What goes through `sink_character` for a prefix and digits. -/
def putField (d : Directive) (fieldPrefix temporary : List UInt8) : List UInt8 :=
  let zeros := zeroCount d temporary.length
  let padding := paddingOf overflow d.width (fieldPrefix.length + zeros + temporary.length)
  (if !d.flags.left ∧ (!d.flags.zero ∨ d.precision ≥ 0) then
    List.replicate padding.toNat (chr ' ') else []) ++ fieldPrefix ++
  (if !d.flags.left ∧ d.flags.zero ∧ d.precision < 0 then
    List.replicate padding.toNat (chr '0') else []) ++
  List.replicate (toInt32 zeros).toNat (chr '0') ++ temporary ++
  if d.flags.left then List.replicate padding.toNat (chr ' ') else []

def putConverted (d : Directive) : Converted → Option (List UInt8)
  | .string text => putString overflow d (text.getD (ascii "(null)" ++ [0]))
  | .field fieldPrefix temporary => some (putField overflow d fieldPrefix temporary)
  | .other => some (if d.conversion ≠ 0 then [d.conversion] else [])

end Printing

/-- The bytes of the format that one round of the main loop has passed, and the characters it has
put through the sink. -/
structure Round where
  text : List UInt8
  printed : List UInt8
  deriving DecidableEq, Repr

/-- `format` and the arguments that are left, and for the record the rounds so far. -/
structure FormatState where
  format : List UInt8
  args : List Argument
  rounds : List Round

def FormatState.advance (s : FormatState) (format : List UInt8) (args : List Argument)
    (printed : List UInt8) : FormatState :=
  ⟨format, args, s.rounds ++ [⟨s.format.take (s.format.length - format.length), printed⟩]⟩

section Rounds

/-- The body of the main loop. -/
def formatRound (s : FormatState) : Option FormatState :=
  match s.format with
  | [] => none
  | c :: format =>
    if c ≠ chr '%' then some (s.advance format s.args [c])
    else format.head?.bind fun next =>
      if next = chr '%' then some (s.advance format.tail s.args [next])
      else
        (readDirective overflow format s.args).bind fun (d, format, args) =>
          (convertIn d args).bind fun (converted, args) =>
            (putConverted overflow d converted).map fun printed => s.advance format args printed

/-- The main loop. -/
def formatRounds : ℕ → FormatState → Option FormatState
  | 0, _ => none
  | n + 1, s => s.format.head?.bind fun c =>
    if c = 0 then some s else (formatRound overflow s).bind (formatRounds n)

end Rounds

end JsOs.FormatReading

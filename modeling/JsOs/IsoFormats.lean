import JsOs.FormatModel
import JsOs.Numerals

/-!
# Integer conversions in ISO C

A conversion specification for an integer, how it is written in a format, and the field that
ISO C wants for it. The flag `#` with `d`, `i` or `u` has no meaning in ISO C.
-/

namespace JsOs.IsoFormats

open MachineWords FormatModel Numerals

inductive Flag where
  | minus
  | plus
  | space
  | alternate
  | zero
  deriving DecidableEq, Repr

/-- A width or a precision: digits in the format, or an argument of type `int`. -/
inductive Amount where
  | digits (ds : List (Fin 10))
  | argument (value : BitVec 32)
  deriving DecidableEq, Repr

def Amount.startsWithZero : Amount → Bool
  | .digits ds => ds.head? = some 0
  | .argument _ => false

inductive Modifier where
  | plain
  | hh
  | h
  | l
  | ll
  | z
  | t
  | j
  deriving DecidableEq, Repr

inductive Conversion where
  | d
  | i
  | u
  | x
  | X
  | o
  deriving DecidableEq, Repr

/-- The argument of a modifier, after the default promotions. -/
def Modifier.argumentBits : Modifier → ℕ
  | .plain => 32
  | .hh => 32
  | .h => 32
  | _ => 64

/-- The type that the modifier names. -/
def Modifier.valueBits : Modifier → ℕ
  | .plain => 32
  | .hh => 8
  | .h => 16
  | _ => 64

/-- A specification with its arguments. Digits of a width do not begin with 0, which would be a
flag; no digits are no width. -/
structure IntegerDirective where
  flags : List Flag
  width : Amount
  precision : Option Amount
  modifier : Modifier
  conversion : Conversion
  value : BitVec modifier.argumentBits
  width_head : width.startsWithZero = false

section Writing

def Flag.character : Flag → UInt8
  | .minus => chr '-'
  | .plus => chr '+'
  | .space => chr ' '
  | .alternate => chr '#'
  | .zero => chr '0'

/-- The last decimal digit of a number. -/
def decimalDigit (n : ℕ) : Fin 10 := Fin.ofNat 10 n

def decimalCharacter (d : Fin 10) : UInt8 := UInt8.ofNat (48 + d)

def Amount.text : Amount → List UInt8
  | .digits ds => ds.map decimalCharacter
  | .argument _ => [chr '*']

def Modifier.text : Modifier → List UInt8
  | .plain => []
  | .hh => [chr 'h', chr 'h']
  | .h => [chr 'h']
  | .l => [chr 'l']
  | .ll => [chr 'l', chr 'l']
  | .z => [chr 'z']
  | .t => [chr 't']
  | .j => [chr 'j']

def Conversion.character : Conversion → UInt8
  | .d => chr 'd'
  | .i => chr 'i'
  | .u => chr 'u'
  | .x => chr 'x'
  | .X => chr 'X'
  | .o => chr 'o'

/-- What follows the percent sign. -/
def IntegerDirective.text (D : IntegerDirective) : List UInt8 :=
  D.flags.map Flag.character ++ (D.width.text ++
    ((D.precision.elim [] fun p => chr '.' :: p.text) ++
      (D.modifier.text ++ [D.conversion.character])))

def Amount.arguments : Amount → List Argument
  | .digits _ => []
  | .argument value => [.int value]

def Modifier.pass : (m : Modifier) → BitVec m.argumentBits → Argument
  | .plain, v => .int v
  | .hh, v => .int v
  | .h, v => .int v
  | .l, v => .long v
  | .ll, v => .long v
  | .z, v => .long v
  | .t, v => .long v
  | .j, v => .long v

def IntegerDirective.arguments (D : IntegerDirective) : List Argument :=
  D.width.arguments ++ (D.precision.elim [] Amount.arguments ++ [D.modifier.pass D.value])

end Writing

section Meaning

def Amount.amount : Amount → ℤ
  | .digits ds => numeralValue 10 (ds.map Fin.val)
  | .argument value => value.toInt

def Conversion.signed (c : Conversion) : Bool := c = .d ∨ c = .i

def Conversion.base (c : Conversion) : ℕ := if c = .o then 8 else if c = .x ∨ c = .X then 16 else 10

def digitCharacter (uppercase : Bool) (d : ℕ) : UInt8 :=
  (ascii (if uppercase then "0123456789ABCDEF" else "0123456789abcdef")).getD d 0

variable (D : IntegerDirective)

namespace IntegerDirective

/-- The number that is printed: the argument converted to the type of the modifier. -/
def number : ℤ :=
  if D.conversion.signed then (D.value.setWidth D.modifier.valueBits).toInt
  else (D.value.setWidth D.modifier.valueBits).toNat

/-- A negative precision is as if there were none. -/
def digitCount : Option ℕ := D.precision.bind fun p =>
  if p.amount < 0 then none else some p.amount.toNat

/-- The digits of a number: at least as many as the precision says, or one; for `#o`, a leading
zero. -/
def digits (n : ℤ) : List UInt8 :=
  let numeral := (numeral D.conversion.base n.natAbs).map (digitCharacter (D.conversion = .X))
  let padded := List.replicate (D.digitCount.getD 1 - numeral.length) (chr '0') ++ numeral
  if D.conversion = .o ∧ .alternate ∈ D.flags ∧ padded.head? ≠ some (chr '0') then chr '0' :: padded
  else padded

/-- The sign of a number, or the prefix of the alternate form. -/
def sign (n : ℤ) : List UInt8 :=
  if D.conversion.signed then
    if n < 0 then [chr '-']
    else if .plus ∈ D.flags then [chr '+']
    else if .space ∈ D.flags then [chr ' ']
    else []
  else if D.conversion.base = 16 ∧ .alternate ∈ D.flags ∧ n ≠ 0 then
    [chr '0', D.conversion.character]
  else []

end IntegerDirective

/-- A sign and digits in a field: spaces behind them, zeros between them, or spaces before
them. -/
def layout (left zeros : Bool) (width : ℕ) (sign digits : List UInt8) : List UInt8 :=
  let padding := width - (sign ++ digits).length
  if left then sign ++ digits ++ List.replicate padding (chr ' ')
  else if zeros then sign ++ List.replicate padding (chr '0') ++ digits
  else List.replicate padding (chr ' ') ++ sign ++ digits

namespace IntegerDirective

/-- Left-justified: by the flag, or by a negative width. -/
def leftJustified : Bool := .minus ∈ D.flags ∨ D.width.amount < 0

/-- The field that ISO C wants; the flag `0` does not count where there is a precision. -/
def isoField : List UInt8 :=
  layout D.leftJustified (.zero ∈ D.flags ∧ D.digitCount = none) D.width.amount.natAbs
    (D.sign D.number) (D.digits D.number)

/-- Where ISO C leaves the behaviour undefined. -/
def Undefined : Prop := .alternate ∈ D.flags ∧ D.conversion.base = 10

end IntegerDirective

end Meaning

example : IntegerDirective.isoField ⟨[.zero, .plus], .digits [7], none, .plain, .d, 42, by decide⟩ =
    ascii "+000042" := by decide

end JsOs.IsoFormats

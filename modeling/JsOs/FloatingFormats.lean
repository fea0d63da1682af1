import JsOs.IsoFormats

/-!
# Floating conversions in ISO C

A conversion specification for a floating-point number, and the field that ISO C wants for it. The
digits are those that `fixed_double` returns for the value; only how they are laid out is of
interest. An infinity is not treated apart.
-/

namespace JsOs.FloatingFormats

open MachineWords FormatModel IsoFormats

inductive FloatingConversion where
  | f
  | F
  | e
  | E
  | g
  | G
  deriving DecidableEq, Repr

structure FloatingDirective where
  flags : List Flag
  width : Amount
  precision : Option Amount
  conversion : FloatingConversion
  value : Float
  width_head : width.startsWithZero = false

def FloatingConversion.character : FloatingConversion → UInt8
  | .f => chr 'f'
  | .F => chr 'F'
  | .e => chr 'e'
  | .E => chr 'E'
  | .g => chr 'g'
  | .G => chr 'G'

/-- The variable `use_exponent` of `vsnprintf`. -/
def useExponent (conversion : UInt8) (value : Float) : Bool :=
  conversion = chr 'e' ∨ conversion = chr 'E' ∨
    (conversion = chr 'g' ∨ conversion = chr 'G') ∧
      (value ≥ 1000000.0 ∨ value ≤ -1000000.0 ∨
        value != 0.0 ∧ value < 0.0001 ∧ value > -0.0001)

/-- The sign bit. -/
def negative (value : Float) : Bool := value.toBits.toNat / 2 ^ 63 ≠ 0

namespace FloatingDirective

variable (D : FloatingDirective)

/-- What follows the percent sign. -/
def text : List UInt8 :=
  D.flags.map Flag.character ++ (D.width.text ++
    ((D.precision.elim [] fun p => chr '.' :: p.text) ++ [D.conversion.character]))

def arguments : List Argument :=
  D.width.arguments ++ (D.precision.elim [] Amount.arguments ++ [.double D.value])

/-- What `fixed_double` returns. -/
def fixedText : List UInt8 :=
  fixedDouble D.value (D.precision.elim (-1) Amount.amount)
    (useExponent D.conversion.character D.value)

/-- Without the minus sign of a negative number. -/
def digits : List UInt8 := if negative D.value then D.fixedText.tail else D.fixedText

def sign : List UInt8 :=
  if negative D.value then [chr '-']
  else if .plus ∈ D.flags then [chr '+']
  else if .space ∈ D.flags then [chr ' ']
  else []

/-- Left-justified: by the flag, or by a negative width. -/
def leftJustified : Bool := .minus ∈ D.flags ∨ D.width.amount < 0

/-- The field that ISO C wants; the flag `0` counts with a precision as well as without. -/
def isoField : List UInt8 :=
  layout D.leftJustified (.zero ∈ D.flags) D.width.amount.natAbs D.sign D.digits

end FloatingDirective

end JsOs.FloatingFormats

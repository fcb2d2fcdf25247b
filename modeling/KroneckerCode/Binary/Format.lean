import KroneckerCode.Power

/-!
# Binary floating-point numbers

A number of this kind is a word of bits: a sign, an exponent and a fraction.
Two formats are known, of 32 and of 64 bits. No arithmetic is done on such
numbers; they are only read. What a word says is its `Datum`: either a number
`± significand * 2 ^ exponent`, exactly, or one of the words that denote none.

The least exponent field is that of the numbers near zero, which have no hidden
leading digit, and the greatest that of the infinities and of the words that are
not a number. Zero has two words, one for each sign.
-/

namespace KroneckerCode

/-- A binary floating-point format. -/
inductive BinaryFormat where
  | binary32 | binary64
deriving DecidableEq, Repr

namespace BinaryFormat

/-- The name of the format. -/
def name : BinaryFormat → String
  | binary32 => "f32"
  | binary64 => "f64"

/-- The number of bits of the fraction. -/
def fractionBits : BinaryFormat → Nat
  | binary32 => 23
  | binary64 => 52

/-- The number of bits of the exponent. -/
def exponentBits : BinaryFormat → Nat
  | binary32 => 8
  | binary64 => 11

/-- The number of bits of a word. -/
def width (f : BinaryFormat) : Nat := 1 + f.exponentBits + f.fractionBits

/-- The number of binary digits of a significand, the hidden one included. -/
def precision (f : BinaryFormat) : Nat := f.fractionBits + 1

/-- What the exponent field of the number one holds. -/
def bias (f : BinaryFormat) : Nat := twoPow (f.exponentBits - 1) - 1

/-- The greatest exponent field, which no number has. -/
def topExponent (f : BinaryFormat) : Nat := twoPow f.exponentBits - 1

/-- The exponent of the last digit of the numbers nearest to zero. -/
def minExponent (f : BinaryFormat) : Int := 1 - f.bias - f.fractionBits

end BinaryFormat

/-- A floating-point word. -/
@[ext] structure Binary (f : BinaryFormat) where
  bits : BitVec f.width
deriving DecidableEq

/-- What a floating-point word says. -/
inductive Datum where
  | notANumber
  | infinite (negative : Bool)
  | finite (negative : Bool) (significand : Nat) (exponent : Int)
deriving DecidableEq, Repr

namespace Binary

variable {f : BinaryFormat}

/-- Whether the sign is a minus. -/
def isNegative (x : Binary f) : Bool := x.bits.msb

/-- The exponent as it is stored. -/
def exponentField (x : Binary f) : Nat :=
  x.bits.toNat / twoPow f.fractionBits % twoPow f.exponentBits

/-- The fraction as it is stored. -/
def fractionField (x : Binary f) : Nat := x.bits.toNat % twoPow f.fractionBits

/-- What the word says. -/
def datum (x : Binary f) : Datum :=
  if x.exponentField = f.topExponent then
    if x.fractionField = 0 then .infinite x.isNegative else .notANumber
  else if x.exponentField = 0 then
    .finite x.isNegative x.fractionField f.minExponent
  else
    .finite x.isNegative (twoPow f.fractionBits + x.fractionField)
      (x.exponentField - 1 + f.minExponent)

end Binary

namespace Datum

/-- The integer that is left when the digits behind the point are dropped. -/
def truncate? : Datum → Option Int
  | finite negative m e =>
    let magnitude : Nat := if 0 ≤ e then m * twoPow e.toNat else m / twoPow (-e).toNat
    some (if negative then -(magnitude : Int) else magnitude)
  | _ => none

/-- Whether it is a number with nothing behind the point. -/
def isWhole : Datum → Bool
  | finite _ m e => 0 ≤ e || m % twoPow (-e).toNat == 0
  | _ => false

end Datum

end KroneckerCode

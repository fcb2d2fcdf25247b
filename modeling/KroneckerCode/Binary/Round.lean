import KroneckerCode.Binary.Format

/-!
# Rounding integers to binary floating point

An integer is rounded to the nearest number that has as few binary digits as
the format allows. If two are equally near, the one with the even significand
is taken. An integer that rounds to more than the format can express becomes
infinite.

The word of a positive number is its exponent field followed by the fraction,
and numbers next to each other have words next to each other. So a significand
that is rounded up to the next power of two needs no case of its own: what is
carried out of the fraction raises the exponent, or reaches infinity.
-/

namespace KroneckerCode

/-- The quotient of `n` by `twoPow k`, rounded to the nearest integer, to the even one of two. -/
def roundHalfEven (n k : Nat) : Nat :=
  let q := n / twoPow k
  let r := n % twoPow k
  if twoPow k < 2 * r ∨ (twoPow k = 2 * r ∧ q % 2 = 1) then q + 1 else q

namespace Binary

/-- The word without its sign that is nearest to the number `n`. -/
def roundMagnitude (f : BinaryFormat) (n : Nat) : Nat :=
  if n = 0 then
    0
  else
    let digits := bitLength n
    -- the significand gets all the digits of the format: zeros are added or digits rounded away
    let significand :=
      if digits ≤ f.precision then n * twoPow (f.precision - digits)
      else roundHalfEven n (digits - f.precision)
    let unit := twoPow f.fractionBits
    -- the exponent field counts the hidden digit's place, so that digit is left out of the fraction
    min ((f.bias + digits - 1) * unit + (significand - unit)) (f.topExponent * unit)

/-- The floating-point number nearest to an integer. -/
def ofInt (f : BinaryFormat) (n : Int) : Binary f :=
  let magnitude := roundMagnitude f n.natAbs
  ⟨BitVec.ofNat f.width (if n < 0 then twoPow (f.width - 1) + magnitude else magnitude)⟩

end Binary

end KroneckerCode

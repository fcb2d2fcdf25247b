import KroneckerCode.Binary.Format

/-!
# Shortest decimals

The text of a floating-point number is the decimal with the fewest digits that
lies nearer to it than to any other number of its format. The numbers that round
to `m * 2 ^ e` reach half way to the neighbours on either side; the ends belong
to the interval if `m` is even. Below a power of two the neighbour is nearer by
half.

The decimals whose last digit stands for `10 ^ j` form a grid. The search goes
from a grid that is coarser than the number to finer ones, and stops at the
first grid with a point inside the interval. Only the two points around the
number can be meant; of two inside, the nearer is taken, and the upper one of
two equally near. Every binary number is itself a point of the grid of its last
binary digit, so the search does not go past that grid.

Two grids and a binary number are compared in whole numbers, by multiplying all
sides with the powers of two and ten that make them whole.
-/

namespace KroneckerCode

/-- The number `digits * 10 ^ exponent`. -/
structure Decimal where
  digits : Nat
  exponent : Int
deriving DecidableEq, Repr

namespace Decimal

/-- A run of `n` zeros. -/
def zeros (n : Nat) : String := String.ofList (List.replicate n '0')

/-- The decimal with all its places, and with a point only if something stands behind it. -/
def text (d : Decimal) : String :=
  let digits := toString d.digits
  if 0 ≤ d.exponent then
    digits ++ zeros d.exponent.toNat
  else
    let places := (-d.exponent).toNat
    let padded := zeros (places + 1 - digits.length) ++ digits
    let whole := padded.length - places
    String.ofList (padded.toList.take whole) ++ "." ++ String.ofList (padded.toList.drop whole)

/--
The point of the grid `10 ^ j` that stands for `m * 2 ^ e`, if one does. Whether
the neighbour below is nearer is given by `narrow`. All numbers are multiplied by
four, so that the ends of the interval are whole.
-/
def onGrid? (m : Nat) (e : Int) (narrow : Bool) (j : Int) : Option Nat :=
  -- a step of the grid, and a quarter of the last binary digit, in common units
  let unit := Nat.pow 10 j.toNat * twoPow (2 - e).toNat
  let scale := twoPow (e - 2).toNat * Nat.pow 10 (-j).toNat
  let middle := 4 * m * scale
  let low := (4 * m - if narrow then 1 else 2) * scale
  let high := (4 * m + 2) * scale
  let inside := fun x => if m % 2 = 0 then low ≤ x ∧ x ≤ high else low < x ∧ x < high
  -- the two points of the grid around the number
  let d := middle / unit
  let below := d * unit
  let above := (d + 1) * unit
  if inside above ∧ (above - middle ≤ middle - below ∨ ¬ inside below) then some (d + 1)
  else if inside below then some d
  else none

/-- The first grid with a point, from `10 ^ j` on for as many grids as there is fuel. -/
def search (m : Nat) (e : Int) (narrow : Bool) : (fuel : Nat) → (j : Int) → Decimal
  | 0, j => { digits := m * twoPow (e - j).toNat * Nat.pow 5 (-j).toNat, exponent := j }
  | fuel + 1, j =>
    match onGrid? m e narrow j with
    | some d => { digits := d, exponent := j }
    | none => search m e narrow fuel (j - 1)

/-- The shortest decimal that stands for `m * 2 ^ e`, where `m` is not zero. -/
def shortest (m : Nat) (e : Int) (narrow : Bool) : Decimal :=
  let top : Nat := (bitLength m + e).toNat
  let bottom : Int := min e 0
  search m e narrow (top - bottom).toNat top

end Decimal

namespace Binary

/-- The text of a number without its sign. -/
def magnitudeText (f : BinaryFormat) (m : Nat) (e : Int) : String :=
  if m = 0 then
    "0"
  else
    (Decimal.shortest m e (m == twoPow f.fractionBits && f.minExponent < e)).text

/-- The text of a floating-point word. -/
def text {f : BinaryFormat} (x : Binary f) : String :=
  match x.datum with
  | .notANumber => "NaN"
  | .infinite negative => if negative then "-inf" else "inf"
  | .finite negative m e => (if negative then "-" else "") ++ magnitudeText f m e

end Binary

end KroneckerCode

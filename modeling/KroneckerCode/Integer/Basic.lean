import KroneckerCode.Error.Basic
import KroneckerCode.IntType
import KroneckerCode.Integer.Checked

/-!
# Integers with two kinds of storage

An `Integer` has no bounds. A small one is stored inline, in one 64-bit word,
and any other is large. The two kinds are not told apart by size alone: an
integer becomes large when a result does not fit in a word, or on request, and
from then on every result computed from it is large as well. Only a fresh value
starts in the smallest storage that holds it.

What an integer denotes is its `value`, and `value` is the view through which
every operation is understood; the storage shows in `isInline` and nowhere else.
-/

namespace KroneckerCode

/-- An integer of any size, with its storage. -/
inductive Integer where
  /-- Stored in one machine word. -/
  | inline (word : Int64)
  /-- Stored apart, whatever its size. -/
  | large (value : Int)
deriving DecidableEq

namespace Integer

/-- The integer that is denoted. -/
def value : Integer → Int
  | inline w => w.toInt
  | large n => n

/-- Whether the storage is one machine word. -/
def isInline : Integer → Bool
  | inline _ => true
  | large _ => false

/-- A fresh integer, in the smallest storage that holds it. -/
def ofInt (n : Int) : Integer :=
  if WordSize.w64.Holds n then inline (Int64.ofInt n) else large n

/-- A fresh integer, from a value of a machine type. -/
def ofRanged {t : IntType} (x : Ranged t) : Integer := ofInt x.val

/-- The same integer in large storage. -/
def promote (a : Integer) : Integer := large a.value

instance : Inhabited Integer := ⟨inline 0⟩

/-! ## Arithmetic

An operation on two inline integers is tried in the machine first. If it is
refused there, or if an operand is large, the result is computed without bounds
and is large. -/

/-- Applies the word operation where it can, and the unbounded one otherwise. -/
def combine (onWords : Int64 → Int64 → Option Int64) (unbounded : Int → Int → Int) :
    Integer → Integer → Integer
  | inline a, inline b =>
    match onWords a b with
    | some w => inline w
    | none => large (unbounded a.toInt b.toInt)
  | a, b => large (unbounded a.value b.value)

instance : Add Integer := ⟨combine Checked.add (· + ·)⟩
instance : Sub Integer := ⟨combine Checked.sub (· - ·)⟩
instance : Mul Integer := ⟨combine Checked.mul (· * ·)⟩

/-- The quotient, cut toward zero. -/
def div (a b : Integer) : Except Fault Integer :=
  if b.value = 0 then .error .zeroDivisor else .ok (combine Checked.div Int.tdiv a b)

/-- The remainder, with the sign of the dividend. -/
def mod (a b : Integer) : Except Fault Integer :=
  if b.value = 0 then .error .zeroDivisor else .ok (combine Checked.mod Int.tmod a b)

/-- The opposite. -/
def neg : Integer → Integer
  | inline a =>
    match Checked.neg a with
    | some w => inline w
    | none => large (-a.toInt)
  | large n => large (-n)

instance : Neg Integer := ⟨neg⟩

/-- The absolute value. -/
def abs : Integer → Integer
  | inline a =>
    match Checked.abs a with
    | some w => inline w
    | none => large a.toInt.natAbs
  | large n => large n.natAbs

/-- The power with a natural exponent. -/
def pow (a : Integer) (exp : Nat) : Integer :=
  match a with
  | inline w =>
    match Checked.pow w exp with
    | some p => inline p
    | none => large (Int.pow w.toInt exp)
  | large n => large (Int.pow n exp)

/-! ## Observations

All of these are decided by the value. An inline integer answers from its word. -/

/-- How two integers are ordered. -/
def compare : Integer → Integer → Ordering
  | inline a, inline b => if a < b then .lt else if a = b then .eq else .gt
  | a, b => Ord.compare a.value b.value

/-- The sign: `-1`, `0` or `1`. -/
def sign : Integer → Int
  | inline w => if w < 0 then -1 else if w = 0 then 0 else 1
  | large n => n.sign

/-- Whether the integer is zero. -/
def isZero (a : Integer) : Bool := a.sign == 0

/-- Whether the integer is below zero. -/
def isNegative (a : Integer) : Bool := a.sign < 0

/-- Whether the integer is above zero. -/
def isPositive (a : Integer) : Bool := 0 < a.sign

/-- Whether the integer is one. -/
def isOne : Integer → Bool
  | inline w => w == 1
  | large n => n == 1

/-- Whether the integer is even. -/
def isEven : Integer → Bool
  | inline w => w % 2 == 0
  | large n => n % 2 == 0

/-- The distance of a word from zero, as an unsigned word. -/
def magnitude (w : Int64) : UInt64 :=
  if w < 0 then -w.toUInt64 else w.toUInt64

/-- The number of binary digits of the absolute value. -/
def bitLength : Integer → Nat
  | inline w => KroneckerCode.bitLength (magnitude w).toNat
  | large n => KroneckerCode.bitLength n.natAbs

/-- The value, if a 64-bit word holds it. -/
def toInt64? : Integer → Option Int
  | inline w => some w.toInt
  | large n => if WordSize.w64.Holds n then some n else none

/-- The value, if a 128-bit word holds it. -/
def toInt128? : Integer → Option Int
  | inline w => some w.toInt
  | large n => if WordSize.w128.Holds n then some n else none

/-- The word that denotes the value, if there is one. No word is wider than 128 bits. -/
def toWord? (s : WordSize) (a : Integer) : Option (Word s) := a.toInt128?.bind Word.ofInt?

/-- What a hash of an integer is computed from. -/
inductive HashKey where
  /-- A 128-bit integer. -/
  | word (n : Int)
  /-- An integer that has no 128-bit form. -/
  | big (n : Int)
deriving DecidableEq

/-- Equal values have equal keys, whatever their storage. -/
def hashKey (a : Integer) : HashKey :=
  match a.toInt128? with
  | some n => .word n
  | none => .big a.value

instance : ToString Integer := ⟨fun a => toString a.value⟩

/-- The text that a programmer reads. -/
def debugText (a : Integer) : String := s!"Integer({a})"

end Integer

end KroneckerCode

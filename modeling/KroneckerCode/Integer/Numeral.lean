import KroneckerCode.Integer.Basic

/-!
# Numerals

A numeral is an optional sign and digits in a radix from 2 to 36. The digits
above nine are the letters, in either case. Underscores may stand anywhere
behind the sign and mean nothing, so a numeral of underscores alone is zero;
but something has to stand behind the sign.
-/

namespace KroneckerCode

/-- Why a text is not a numeral. -/
inductive NumeralError where
  /-- The radix is not between 2 and 36. -/
  | unsupportedRadix
  /-- Nothing stands behind the sign. -/
  | noDigits
  /-- Some character is no digit of the radix. -/
  | invalidDigit
deriving DecidableEq, Repr

/-- The text of the refusal. -/
def NumeralError.message : NumeralError → String
  | unsupportedRadix => "unsupported radix"
  | noDigits => "no digits"
  | invalidDigit => "invalid digit"

namespace Numeral

/-- The value of a digit or a letter. -/
def digitValue? (c : Char) : Option Nat :=
  if '0' ≤ c ∧ c ≤ '9' then some (c.toNat - '0'.toNat)
  else if 'a' ≤ c ∧ c ≤ 'z' then some (c.toNat - 'a'.toNat + 10)
  else if 'A' ≤ c ∧ c ≤ 'Z' then some (c.toNat - 'A'.toNat + 10)
  else none

/-- The value of a digit of the radix. -/
def digit? (radix : Nat) (c : Char) : Option Nat :=
  (digitValue? c).filter (· < radix)

/-- Reads digits behind a number `n` that has been read already. -/
def readDigits (radix : Nat) (n : Nat) : List Char → Except NumeralError Nat
  | [] => .ok n
  | c :: cs =>
    if c = '_' then
      readDigits radix n cs
    else
      match digit? radix c with
      | some d => readDigits radix (n * radix + d) cs
      | none => .error .invalidDigit

/-- Reads what stands behind the sign. -/
def readMagnitude (radix : Nat) (cs : List Char) : Except NumeralError Nat :=
  if cs.isEmpty then .error .noDigits else readDigits radix 0 cs

/-- Reads a numeral. -/
def read (radix : Nat) (cs : List Char) : Except NumeralError Int :=
  if radix < 2 ∨ 36 < radix then
    .error .unsupportedRadix
  else
    match cs with
    | '-' :: rest => (readMagnitude radix rest).map fun n : Nat => -(n : Int)
    | '+' :: rest => (readMagnitude radix rest).map fun n : Nat => (n : Int)
    | _ => (readMagnitude radix cs).map fun n : Nat => (n : Int)

end Numeral

/-- The fresh integer that the numeral denotes. -/
def Integer.ofNumeral (text : String) (radix : Nat) : Except NumeralError Integer :=
  (Numeral.read radix text.toList).map Integer.ofInt

end KroneckerCode

import KroneckerCode.Integer.Basic
import KroneckerCode.Primality.Machine
import KroneckerCode.Primality.Unbounded

/-!
# Primes among integers

An integer below `2^64` is tested in machine words, whatever its storage; a
greater one is tested without bounds. Both tests ask whether it is a strong
probable prime to all witnesses. Every prime passes for one; from `2^64` on a
composite number may pass as well, so what is called prime here is what passes.

The next prime is found by trying one odd number after the other, and it is the
first that passes. There is always a prime between a number and its double, so
as many steps as the first candidate's value are more than enough, and the fuel
of the search never ends it.
-/

namespace KroneckerCode.Integer

/-- Whether the integer passes for a prime. Every prime does. -/
def isPrime (a : Integer) : Bool :=
  if a.isPositive then
    match a with
    | inline w => Primality.isPrimeWord (magnitude w)
    | large n =>
      if n < twoPow 64 then
        Primality.isPrimeWord (UInt64.ofNat n.toNat)
      else
        Primality.Unbounded.isProbablePrime n.toNat
  else
    false

/-- The first of `a, a + 2, a + 4, …` that passes, for as many steps as there is fuel. -/
def nextPrimeFrom : (fuel : Nat) → Integer → Integer
  | 0, a => a
  | fuel + 1, a => if a.isPrime then a else nextPrimeFrom fuel (a + inline 2)

/-- The least integer that is not below `a` and passes for a prime. -/
def nextPrime (a : Integer) : Integer :=
  match a.compare (inline 2) with
  | .gt =>
    -- from an odd number on, steps of two meet every odd number
    let odd := if a.isEven then a + inline 1 else a
    nextPrimeFrom odd.value.toNat odd
  | _ => inline 2

end KroneckerCode.Integer

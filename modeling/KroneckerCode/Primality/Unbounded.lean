import KroneckerCode.Power

/-!
# The primality test for numbers of any size

A number `n = d * 2^s + 1` with `d` odd is a strong probable prime to the base
`a` when `a^d` is one modulo `n`, or when one of `a^d, a^(2d), …, a^(2^(s-1) d)`
is minus one. A prime is one to every base it does not divide; a composite
number is one to few bases. Both tests of this library use the same twelve
bases, the first twelve primes, and both first divide by them.

This is the test for numbers that do not fit in a machine word. It asks the same
question as the test in words, in arithmetic that has no bounds, and walks the
exponent by the position of its binary digits instead of shifting it away.

Every prime passes, and below `2^64` nothing else does. Above, a few composite
numbers pass as well: the answer there is reproducible, but it is not a proof.
-/

namespace KroneckerCode.Primality

/-- The bases of the tests: the primes below 41. -/
def witnesses : List Nat := [2, 3, 5, 7, 11, 13, 17, 19, 23, 29, 31, 37]

namespace Unbounded

/--
The loop of `powMod`: `k` digits of the exponent are left, from position `i` on.
-/
def powModFrom (m exp : Nat) : (k i : Nat) → (result base : Nat) → Nat
  | 0, _, result, _ => result
  | k + 1, i, result, base =>
    powModFrom m exp k (i + 1) (if exp.testBit i then result * base % m else result)
      (base * base % m)

/-- The power `base ^ exp` modulo `m`. -/
def powMod (base exp m : Nat) : Nat :=
  powModFrom m exp (bitLength exp) 0 1 (base % m)

/-- The odd number `d` and the exponent `s` with `n = d * 2^s`. For zero it is zero and zero. -/
def oddPart (n : Nat) : Nat × Nat :=
  if n ≠ 0 ∧ n % 2 = 0 then
    let (d, s) := oddPart (n / 2)
    (d, s + 1)
  else
    (n, 0)
termination_by n
decreasing_by omega

/-- Whether `n - 1` is among the next `k` squares of `x` modulo `n`. -/
def squaresReach (n : Nat) : Nat → Nat → Bool
  | 0, _ => false
  | k + 1, x =>
    let y := x * x % n
    y == n - 1 || squaresReach n k y

/-- Whether `n = d * 2^s + 1` passes the strong test to the base `a`. -/
def passes (n d s a : Nat) : Bool :=
  let x := powMod a d n
  x == 1 || x == n - 1 || squaresReach n (s - 1) x

/--
Whether `n` is divisible by no witness and passes the strong test to all of
them. It is meant for numbers above every witness: a witness itself does not
pass.
-/
def isProbablePrime (n : Nat) : Bool :=
  if witnesses.any fun p => n % p == 0 then
    false
  else
    let (d, s) := oddPart (n - 1)
    witnesses.all (passes n d s)

end Unbounded

end KroneckerCode.Primality

import KroneckerCode.Primality.Unbounded

/-!
# The primality test in machine words

The test for numbers below `2^64`. All values are 64-bit words; only a product
of two of them is formed in a double word of 128 bits, where it cannot wrap,
and the remainder brings it back into one word.

Two loops carry the test. `powMod` squares and multiplies along the binary
digits of the exponent, from the last to the first, and ends when no digit is
left. `oddPart` halves while it can, which is how `n - 1 = d * 2^s` is found.
Both end because a shift to the right makes a nonzero word smaller.
-/

namespace KroneckerCode.Primality

/-- The bases as machine words. -/
def witnessWords : List UInt64 := witnesses.map UInt64.ofNat

theorem toNat_shiftRight_one_lt {x : UInt64} (h : x ≠ 0) : (x >>> 1).toNat < x.toNat := by
  have hx : x.toNat ≠ 0 := fun e => h (UInt64.toNat_inj.1 e)
  rw [UInt64.toNat_shiftRight]
  simp only [UInt64.reduceToNat, Nat.reduceMod, Nat.shiftRight_succ, Nat.shiftRight_zero]
  omega

/-- The product of `a` and `b` modulo `m`, through a double word. -/
def mulMod (a b m : UInt64) : UInt64 :=
  let product : BitVec 128 := a.toBitVec.setWidth 128 * b.toBitVec.setWidth 128
  ⟨(product % m.toBitVec.setWidth 128).setWidth 64⟩

/-- The loop of `powMod`: the answer is `result * base ^ exp` modulo `m`. -/
def powModFrom (m result base exp : UInt64) : UInt64 :=
  if exp = 0 then
    result
  else
    powModFrom m (if exp &&& 1 = 1 then mulMod result base m else result)
      (mulMod base base m) (exp >>> 1)
termination_by exp.toNat
decreasing_by exact toNat_shiftRight_one_lt ‹_›

/-- The power `base ^ exp` modulo `m`. -/
def powMod (base exp m : UInt64) : UInt64 :=
  powModFrom m 1 (base % m) exp

/-- The odd number `d` and the exponent `s` with `x = d * 2^s`. For zero it is zero and zero. -/
def oddPart (x : UInt64) : UInt64 × Nat :=
  if x ≠ 0 ∧ x &&& 1 = 0 then
    let (d, s) := oddPart (x >>> 1)
    (d, s + 1)
  else
    (x, 0)
termination_by x.toNat
decreasing_by exact toNat_shiftRight_one_lt (And.left ‹_›)

/-- Whether `n - 1` is among the next `k` squares of `x` modulo `n`. -/
def squaresReach (n : UInt64) : Nat → UInt64 → Bool
  | 0, _ => false
  | k + 1, x =>
    let y := mulMod x x n
    y == n - 1 || squaresReach n k y

/-- Whether `n = d * 2^s + 1` passes the strong test to the base `a`. -/
def passes (n d : UInt64) (s : Nat) (a : UInt64) : Bool :=
  let x := powMod a d n
  x == 1 || x == n - 1 || squaresReach n (s - 1) x

/-- Whether the word passes for a prime number: no witness divides it but itself, and it passes the
strong test to all of them. -/
def isPrimeWord (n : UInt64) : Bool :=
  if n < 2 then
    false
  else
    match witnessWords.find? fun p => n % p == 0 with
    | some p =>
      -- of the multiples of a witness only the witness itself is prime
      n == p
    | none =>
      let (d, s) := oddPart (n - 1)
      witnessWords.all (passes n d s)

end KroneckerCode.Primality

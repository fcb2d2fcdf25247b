import KroneckerCode.Proofs.Primality.Test

/-!
# The test in words never wraps

A product of two words is formed in a double word, a remainder is cut back to
one word, and one is subtracted from the number under test. The machine reduces
each of these results to its width and says nothing about it. Here the whole
test is written once more in arithmetic that refuses a result which its width
does not hold, and a division by zero with it.

Nothing is ever refused: the product of two words is below `2^128`, a remainder
is below its modulus, and the test asks for powers only of numbers above one.
So the two tests are one, on every word.

What the loops inside compute is exact as well. Both of them end at the power
itself, reduced once, and so it does not matter which of the two is asked.
-/

namespace KroneckerCode.Primality

/-- The number `n`, if so many binary digits hold it. -/
def fit? (bits n : Nat) : Option Nat :=
  if n < twoPow bits then some n else none

/-- The remainder, unless the divisor is zero. -/
def rem? (a b : Nat) : Option Nat :=
  if b = 0 then none else some (a % b)

/-- The word before `n`, if there is one. -/
def before? (n : UInt64) : Option UInt64 :=
  if n = 0 then none else some (n - 1)

/-- The product modulo `m`, if no step overflows or cuts. -/
def mulMod? (a b m : UInt64) : Option UInt64 := do
  let product ← fit? 128 (a.toNat * b.toNat)
  let rest ← rem? product m.toNat
  let word ← fit? 64 rest
  return UInt64.ofNat word

/-- The loop of `powMod?`. -/
def powModFrom? (m result base exp : UInt64) : Option UInt64 :=
  if exp = 0 then
    some result
  else do
    let result ← (if exp &&& 1 = 1 then mulMod? result base m else some result)
    let base ← mulMod? base base m
    powModFrom? m result base (exp >>> 1)
termination_by exp.toNat
decreasing_by exact toNat_shiftRight_one_lt ‹_›

/-- The power modulo `m`, if no step overflows or cuts. -/
def powMod? (base exp m : UInt64) : Option UInt64 :=
  if m = 0 then none else powModFrom? m 1 (base % m) exp

/-- Whether `n - 1` is among the next squares, if no step overflows. -/
def squaresReach? (n : UInt64) : Nat → UInt64 → Option Bool
  | 0, _ => some false
  | k + 1, x => do
    let y ← mulMod? x x n
    let top ← before? n
    if y == top then some true else squaresReach? n k y

/-- Whether `n` passes the strong test to a base, if no step overflows. -/
def passes? (n d : UInt64) (s : Nat) (a : UInt64) : Option Bool := do
  let x ← powMod? a d n
  let top ← before? n
  if x == 1 || x == top then some true else squaresReach? n (s - 1) x

/-- Whether the word passes for a prime, if no step overflows. -/
def isPrimeWord? (n : UInt64) : Option Bool :=
  if n < 2 then
    some false
  else
    -- no witness is zero, so the remainders by them exist
    match witnessWords.find? fun p => n % p == 0 with
    | some p => some (n == p)
    | none => do
      let top ← before? n
      let (d, s) := oddPart top
      witnessWords.allM (passes? n d s)

/-! ## Nothing is refused -/

theorem fit?_eq {bits n : Nat} (h : n < twoPow bits) : fit? bits n = some n :=
  if_pos h

theorem rem?_eq (a : Nat) {b : Nat} (h : 0 < b) : rem? a b = some (a % b) :=
  if_neg (Nat.ne_of_gt h)

theorem ne_zero_of_toNat_pos {n : UInt64} (h : 0 < n.toNat) : n ≠ 0 := by
  rintro rfl
  exact Nat.lt_irrefl 0 h

theorem before?_eq {n : UInt64} (h : 0 < n.toNat) :
    before? n = some (n - 1) :=
  if_neg (ne_zero_of_toNat_pos h)

theorem mulMod?_eq (a b : UInt64) {m : UInt64} (hm : 0 < m.toNat) :
    mulMod? a b m = some (mulMod a b m) := by
  have hprod : a.toNat * b.toNat < twoPow 128 :=
    calc a.toNat * b.toNat < twoPow 64 * twoPow 64 :=
          Nat.mul_lt_mul'' a.toNat_lt b.toNat_lt
      _ = twoPow 128 := by decide
  have hrest : a.toNat * b.toNat % m.toNat < twoPow 64 :=
    (Nat.mod_lt _ hm).trans m.toNat_lt
  have hword : UInt64.ofNat (a.toNat * b.toNat % m.toNat) = mulMod a b m := by
    rw [← toNat_mulMod hm, UInt64.ofNat_toNat]
  simp only [mulMod?, fit?_eq hprod, rem?_eq _ hm, fit?_eq hrest, hword,
    Option.bind_eq_bind, Option.bind_some, Option.pure_def]

theorem powModFrom?_eq {m : UInt64} (hm : 0 < m.toNat)
    (result base exp : UInt64) :
    powModFrom? m result base exp = some (powModFrom m result base exp) := by
  fun_induction powModFrom m result base exp with
  | case1 result base => rw [powModFrom?, if_pos rfl]
  | case2 result base exp hexp ih =>
      have hresult :
          (if exp &&& 1 = 1 then mulMod? result base m else some result) =
            some (if exp &&& 1 = 1 then mulMod result base m else result) := by
        split
        · exact mulMod?_eq result base hm
        · rfl
      rw [powModFrom?, if_neg hexp, hresult]
      simp only [mulMod?_eq base base hm, Option.bind_eq_bind,
        Option.bind_some]
      exact ih

theorem powMod?_eq (base exp : UInt64) {m : UInt64} (hm : 0 < m.toNat) :
    powMod? base exp m = some (powMod base exp m) := by
  rw [powMod?, if_neg (ne_zero_of_toNat_pos hm), powModFrom?_eq hm, powMod]

theorem squaresReach?_eq {n : UInt64} (hn : 0 < n.toNat) (k : Nat)
    (x : UInt64) : squaresReach? n k x = some (squaresReach n k x) := by
  induction k generalizing x with
  | zero => rfl
  | succ k ih =>
      simp only [squaresReach?, squaresReach, mulMod?_eq x x hn,
        before?_eq hn, ih, Option.bind_eq_bind, Option.bind_some]
      split
      · next htop => rw [htop, Bool.true_or]
      · next htop => rw [Bool.eq_false_iff.2 htop, Bool.false_or]

theorem passes?_eq {n : UInt64} (hn : 0 < n.toNat) (d : UInt64) (s : Nat)
    (a : UInt64) : passes? n d s a = some (passes n d s a) := by
  simp only [passes?, passes, powMod?_eq a d hn, before?_eq hn,
    squaresReach?_eq hn, Option.bind_eq_bind, Option.bind_some]
  split
  · next hone => rw [hone, Bool.true_or]
  · next hone => rw [Bool.eq_false_iff.2 hone, Bool.false_or]

/-- In words of any width the test would run as it does. -/
theorem isPrimeWord?_eq (n : UInt64) : isPrimeWord? n = some (isPrimeWord n) := by
  have htwo : n < 2 ↔ n.toNat < 2 := UInt64.lt_iff_toNat_lt
  rw [isPrimeWord?, isPrimeWord]
  split
  · rfl
  · next hlt =>
      have hn : 0 < n.toNat := by
        have := mt htwo.2 hlt
        omega
      cases witnessWords.find? fun p => n % p == 0 with
      | some p => rfl
      | none =>
          have hpasses := fun d s => funext (passes?_eq hn d s)
          simp only [before?_eq hn, hpasses, Option.bind_eq_bind,
            Option.bind_some]
          exact List.allM_pure

/-! ## Powers in words and without bounds -/

theorem toNat_powMod_ofNat {base exp m : Nat} (hb : base < twoPow 64)
    (he : exp < twoPow 64) (hm : 1 < m) (hlt : m < twoPow 64) :
    (powMod (.ofNat base) (.ofNat exp) (.ofNat m)).toNat = base ^ exp % m := by
  have hword : ∀ n < twoPow 64, (UInt64.ofNat n).toNat = n :=
    fun n hn => UInt64.toNat_ofNat_of_lt' hn
  rw [toNat_powMod (by rwa [hword m hlt]), hword base hb, hword exp he,
    hword m hlt]

/-- For every modulus above one both loops answer with the power itself modulo
it. The one in words forms no product that is wider than a double word and cuts
no remainder, and where base, exponent and modulus are words the two agree. -/
theorem powers_exact :
    (∀ base exp m : UInt64, 2 ≤ m.toNat →
      powMod? base exp m = some (powMod base exp m) ∧
        (powMod base exp m).toNat = base.toNat ^ exp.toNat % m.toNat) ∧
    (∀ base exp m : Nat, 2 ≤ m →
      Unbounded.powMod base exp m = base ^ exp % m) ∧
    ∀ base exp m : Nat, base < twoPow 64 → exp < twoPow 64 →
      2 ≤ m → m < twoPow 64 →
      (powMod (.ofNat base) (.ofNat exp) (.ofNat m)).toNat =
        Unbounded.powMod base exp m := by
  refine ⟨?_, ?_, ?_⟩
  · intro base exp m hm
    exact ⟨powMod?_eq base exp (Nat.zero_lt_of_lt hm), toNat_powMod hm⟩
  · intro base exp m hm
    exact Unbounded.powMod_eq hm
  · intro base exp m hb he hm hlt
    rw [toNat_powMod_ofNat hb he hm hlt, Unbounded.powMod_eq hm]

/-- The greatest word to the power of itself, modulo the greatest prime that is
a word, and a power that only the loop without bounds can be asked for. -/
theorem powers_exact_greatest_word :
    2 ≤ (18446744073709551557 : UInt64).toNat ∧
    powMod? 18446744073709551615 18446744073709551615
      18446744073709551557 = some 4959809447704153900 ∧
    18446744073709551615 < twoPow 64 ∧ 18446744073709551557 < twoPow 64 ∧
    18446744073709551615 ^ 18446744073709551615 % 18446744073709551557 =
      4959809447704153900 ∧
    10 ^ twoPow 66 % (3 * twoPow 66 + 1) = 110680464429372407808 := by
  obtain ⟨hwords, hbig, hagree⟩ := powers_exact
  have hm : 2 ≤ (18446744073709551557 : UInt64).toNat := by decide
  have hb : 18446744073709551615 < twoPow 64 := by decide
  have hlt : 18446744073709551557 < twoPow 64 := by decide
  have hloop : Unbounded.powMod 18446744073709551615 18446744073709551615
      18446744073709551557 = 4959809447704153900 := by decide +kernel
  have hpower := hbig 18446744073709551615 18446744073709551615
    18446744073709551557 (by decide)
  have hword := hagree _ _ _ hb hb (by decide) hlt
  have hchecked := (hwords 18446744073709551615 18446744073709551615 _ hm).1
  have hlarge := hbig 10 (twoPow 66) (3 * twoPow 66 + 1) (by decide)
  rw [hloop] at hpower hword
  refine ⟨hm, ?_, hb, hlt, hpower.symm, ?_⟩
  · rw [hchecked, Option.some.injEq]
    exact UInt64.toNat_inj.1 hword
  · rw [← hlarge]
    decide +kernel

/-! Modulo one every power is zero, but to the exponent zero both loops answer
one: the first factor is never reduced. -/

example : Unbounded.powMod 5 0 1 = 1 ∧ 5 ^ 0 % 1 = 0 := by decide

end KroneckerCode.Primality

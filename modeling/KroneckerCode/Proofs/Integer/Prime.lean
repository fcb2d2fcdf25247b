import KroneckerCode.Proofs.Integer.NextPrime
import KroneckerCode.Proofs.Primality.Test
import Mathlib.NumberTheory.Bertrand

/-!
# The next prime is one

An integer is tested by its storage and its size, and the answer depends on
neither: it is the verdict on its value. As no prime fails the verdict, the
search for the next prime meets a number that passes before its fuel ends. There
is a prime between a number and its double, it is as odd as the numbers that are
tried, and so it is among them.
-/

namespace KroneckerCode.Integer

open Primality

theorem isPositive_iff (a : Integer) : a.isPositive = true ↔ 0 < a.value := by
  rw [isPositive, decide_eq_true_iff]
  cases a with
  | large n => exact Int.sign_pos_iff
  | inline w =>
      have hzero : (0 : Int64).toInt = 0 := rfl
      simp only [sign, value, Int64.lt_iff_toInt_lt, ← Int64.toInt_inj, hzero]
      split_ifs <;> omega

theorem toNat_magnitude (w : Int64) :
    (magnitude w).toNat = w.toInt.natAbs := by
  have hint : w.toInt = _ := BitVec.toInt_eq_toNat_cond w.toBitVec
  have hword : w.toUInt64.toNat = w.toBitVec.toNat := rfl
  have hlt := w.toBitVec.isLt
  have hsize : UInt64.size = 2 ^ 64 := rfl
  have hzero : (0 : Int64).toInt = 0 := rfl
  rw [magnitude]
  split
  · next hneg =>
      rw [Int64.lt_iff_toInt_lt, hzero] at hneg
      rw [UInt64.toNat_neg, hword, hsize]
      split at hint <;> omega
  · next hnonneg =>
      rw [Int64.lt_iff_toInt_lt, hzero] at hnonneg
      rw [hword]
      split at hint <;> omega

theorem isPrime_inline_iff {w : Int64} (h : 0 < w.toInt) :
    (inline w).isPrime = true ↔ ProbablePrime w.toInt.toNat := by
  have hmagnitude : w.toInt.toNat = (magnitude w).toNat := by
    rw [toNat_magnitude]
    omega
  rw [hmagnitude, ← isPrimeWord_iff]
  unfold isPrime
  rw [if_pos ((isPositive_iff (inline w)).2 h)]

theorem isPrime_large_iff {n : Int} (h : 0 < n) :
    (large n).isPrime = true ↔ ProbablePrime n.toNat := by
  unfold isPrime
  rw [if_pos ((isPositive_iff (large n)).2 h)]
  by_cases hlt : n < twoPow 64
  · have hword : (UInt64.ofNat n.toNat).toNat = n.toNat := by
      have hsize : twoPow 64 = UInt64.size := rfl
      exact UInt64.toNat_ofNat_of_lt' (by omega)
    simp only [if_pos hlt]
    rw [isPrimeWord_iff, hword]
  · have hbig : 38 ≤ twoPow 64 := by decide
    simp only [if_neg hlt]
    exact Unbounded.isProbablePrime_iff (by omega)
      (not_mem_witnesses (by omega))

/-- Primality is a matter of the value. -/
theorem isPrime_iff (a : Integer) :
    a.isPrime = true ↔ ProbablePrime a.value.toNat := by
  by_cases hpos : 0 < a.value
  · cases a with
    | inline w => exact isPrime_inline_iff hpos
    | large n => exact isPrime_large_iff hpos
  · unfold isPrime
    rw [if_neg (mt (isPositive_iff a).1 hpos)]
    refine iff_of_false Bool.false_ne_true fun h => ?_
    have hone := h.one_lt
    omega

theorem isPrime_congr {a b : Integer} (h : a.value = b.value) :
    a.isPrime = b.isPrime := by
  rw [Bool.eq_iff_iff, isPrime_iff, isPrime_iff, h]

theorem isPrime_of_prime {a : Integer} {p : Nat} (hp : p.Prime)
    (h : a.value = p) : a.isPrime = true := by
  rw [isPrime_iff, h, Int.toNat_natCast]
  exact probablePrime_of_prime hp

/-! ## The search for the next prime -/

/-- With fuel for every number before one that passes, the search ends at one
that passes. -/
theorem isPrime_nextPrimeFrom {a b : Integer} {fuel k : Nat}
    (hb : b.isPrime = true) (hk : b.value = a.value + 2 * k)
    (hfuel : k < fuel) : (nextPrimeFrom fuel a).isPrime = true := by
  induction fuel generalizing a k with
  | zero => cases hfuel
  | succ fuel ih =>
      rw [nextPrimeFrom]
      split
      · assumption
      · next hnot =>
          cases k with
          | zero =>
              rw [isPrime_congr (b := a) (by omega)] at hb
              exact absurd hb hnot
          | succ k =>
              refine ih (k := k) ?_ (Nat.lt_of_succ_lt_succ hfuel)
              rw [hk, value_add_two]
              omega

/-- Rounding up to a prime ends at a number that passes for one. -/
theorem isPrime_nextPrime (a : Integer) : a.nextPrime.isPrime = true := by
  by_cases h : 2 < a.value
  · obtain ⟨hodd, hle, _⟩ := value_firstOdd a
    obtain ⟨p, hp, hlt, hdouble⟩ :=
      Nat.exists_prime_lt_and_le_two_mul a.firstOdd.value.toNat (by omega)
    -- an odd prime is a whole number of steps of two away
    have hpodd : p % 2 = 1 := by
      rcases hp.eq_two_or_odd with htwo | hp
      · omega
      · exact hp
    rw [nextPrime_of_two_lt h]
    refine isPrime_nextPrimeFrom (b := ofInt p)
      (k := (p - a.firstOdd.value.toNat) / 2)
      (isPrime_of_prime hp (value_ofInt _)) ?_ (by omega)
    rw [value_ofInt]
    omega
  · rw [nextPrime_of_le_two (by omega)]
    exact isPrime_of_prime Nat.prime_two rfl

/-! ## Nothing is stepped over -/

/-- What the search goes past does not pass. -/
theorem isPrime_of_lt_nextPrimeFrom {a b : Integer} {fuel k : Nat}
    (hk : b.value = a.value + 2 * k)
    (hlt : b.value < (nextPrimeFrom fuel a).value) : b.isPrime = false := by
  induction fuel generalizing a k with
  | zero =>
      rw [nextPrimeFrom] at hlt
      omega
  | succ fuel ih =>
      rw [nextPrimeFrom] at hlt
      split at hlt
      · omega
      · next hnot =>
          cases k with
          | zero =>
              rw [isPrime_congr (b := a) (by omega)]
              exact Bool.eq_false_iff.2 hnot
          | succ k =>
              refine ih (k := k) ?_ hlt
              rw [hk, value_add_two]
              omega

theorem nextPrime_le {a : Integer} {p : Nat} (hle : a.value ≤ p)
    (hp : ProbablePrime p) : a.nextPrime.value ≤ p := by
  have hone := hp.one_lt
  by_cases h : 2 < a.value
  · obtain ⟨hodd, _, hnear⟩ := value_firstOdd a
    have hpodd : p % 2 = 1 := by
      by_contra heven
      have htwo := hp.eq_of_dvd (p := 2) (by decide) (by omega)
      omega
    by_contra hlt
    have hpass : (ofInt p).isPrime = true := by
      rw [isPrime_iff, value_ofInt, Int.toNat_natCast]
      exact hp
    have hbefore : (ofInt p).value <
        (nextPrimeFrom a.firstOdd.value.toNat a.firstOdd).value := by
      rw [value_ofInt, ← nextPrime_of_two_lt h]
      omega
    have hsteps : (ofInt p).value =
        a.firstOdd.value + 2 * ((p - a.firstOdd.value.toNat) / 2 : Nat) := by
      rw [value_ofInt]
      omega
    rw [isPrime_of_lt_nextPrimeFrom hsteps hbefore] at hpass
    cases hpass
  · rw [value_nextPrime_of_le_two (by omega)]
    omega

/-- The least number from `n` on that passes for a prime. -/
noncomputable def leastPrimeFrom (n : Int) : Nat :=
  sInf {p : Nat | n ≤ p ∧ ProbablePrime p}

theorem isLeast_nextPrime (a : Integer) :
    IsLeast {p : Nat | a.value ≤ p ∧ ProbablePrime p}
      a.nextPrime.value.toNat := by
  have hle := value_le_value_nextPrime a
  have hpass := (isPrime_iff _).1 (isPrime_nextPrime a)
  refine ⟨⟨by omega, hpass⟩, ?_⟩
  intro p hp
  have hleast := nextPrime_le hp.1 hp.2
  omega

theorem value_nextPrime (a : Integer) :
    a.nextPrime.value = leastPrimeFrom a.value := by
  have hone := ((isPrime_iff _).1 (isPrime_nextPrime a)).one_lt
  rw [leastPrimeFrom, (isLeast_nextPrime a).csInf_eq]
  omega

end KroneckerCode.Integer

import KroneckerCode.Primality.Unbounded
import Mathlib.FieldTheory.Finite.Basic
import Mathlib.Tactic.NormNum.Prime

/-!
# Every prime is strong to every base

The predicate that both primality tests decide, and why no prime fails it.
`Strong` says of one base what the tests look for, with powers in place of
loops; `ProbablePrime` is the verdict over all witnesses.

For a prime `p` the power `a ^ (p - 1)` is one modulo `p`. That power is the
`s`-th square of `a ^ d`, and in a field the only square roots of one are one
and minus one. So going back from the last square, the first that is not one is
minus one, or all of them are one.
-/

namespace KroneckerCode.Primality

/-- What the test of `n = d * 2 ^ s + 1` to the base `a` looks for. -/
def Strong (n d s a : Nat) : Prop :=
  a ^ d % n = 1 ∨ ∃ r < s, a ^ (d * 2 ^ r) % n = n - 1

/-- Strong to all witnesses, with an odd part `d` of `n - 1`. -/
def StrongToWitnesses (n : Nat) : Prop :=
  ∃ d s, n = d * 2 ^ s + 1 ∧ d % 2 = 1 ∧ ∀ a ∈ witnesses, Strong n d s a

/-- A witness, or a number that no witness divides and that is strong to all. -/
def ProbablePrime (n : Nat) : Prop :=
  n ∈ witnesses ∨
    1 < n ∧ (∀ p ∈ witnesses, ¬ p ∣ n) ∧ StrongToWitnesses n

theorem prime_of_mem_witnesses {p : Nat} (h : p ∈ witnesses) : p.Prime := by
  have hall : ∀ p ∈ witnesses, p.Prime := by norm_num [witnesses]
  exact hall p h

theorem not_mem_witnesses {n : Nat} (h : 38 ≤ n) : n ∉ witnesses := by
  have hall : ∀ p ∈ witnesses, p < 38 := by decide
  intro hmem
  exact Nat.not_le_of_lt (hall n hmem) h

theorem ProbablePrime.one_lt {n : Nat} (h : ProbablePrime n) : 1 < n := by
  rcases h with hmem | ⟨hn, _⟩
  · exact (prime_of_mem_witnesses hmem).one_lt
  · exact hn

/-- Of the multiples of a witness only the witness itself may pass. -/
theorem ProbablePrime.eq_of_dvd {n p : Nat} (h : ProbablePrime n)
    (hp : p ∈ witnesses) (hdvd : p ∣ n) : p = n := by
  rcases h with hmem | ⟨_, hnone, _⟩
  · exact (Nat.prime_dvd_prime_iff_eq (prime_of_mem_witnesses hp)
      (prime_of_mem_witnesses hmem)).1 hdvd
  · exact absurd hdvd (hnone p hp)

/-- Above one, an odd number has an odd part below it and a square to take. -/
theorem exists_odd_part {n : Nat} (h : 1 < n) (hodd : n % 2 = 1) :
    ∃ d s, n = d * 2 ^ s + 1 ∧ d % 2 = 1 ∧ 0 < s := by
  obtain ⟨s, d, hd, hsplit⟩ :=
    Nat.exists_eq_two_pow_mul_odd (n := n - 1) (by omega)
  refine ⟨d, s, ?_, Nat.odd_iff.1 hd, ?_⟩
  · rw [Nat.mul_comm]
    omega
  · rcases Nat.eq_zero_or_pos s with hs | hs
    · have hone := Nat.odd_iff.1 hd
      rw [hs, Nat.pow_zero, Nat.one_mul] at hsplit
      omega
    · exact hs

/-! ## Square roots of one -/

theorem eq_one_or_neg_one_of_pow_two_pow {R : Type} [CommRing R]
    [NoZeroDivisors R] {y : R} {s : Nat} (h : y ^ 2 ^ s = 1) :
    y = 1 ∨ ∃ r < s, y ^ 2 ^ r = -1 := by
  induction s with
  | zero => exact Or.inl (by rwa [pow_zero, pow_one] at h)
  | succ s ih =>
      -- the last square is one, so it is the square of one or of minus one
      rw [pow_succ, pow_mul, pow_two] at h
      rcases mul_self_eq_one_iff.1 h with hone | hneg
      · rcases ih hone with hy | ⟨r, hr, hy⟩
        · exact Or.inl hy
        · exact Or.inr ⟨r, Nat.lt_succ_of_lt hr, hy⟩
      · exact Or.inr ⟨s, Nat.lt_succ_self s, hneg⟩

theorem strong_of_prime {p d s a : Nat} (hp : p.Prime)
    (hsplit : p = d * 2 ^ s + 1) (ha : ¬ p ∣ a) : Strong p d s a := by
  have : Fact p.Prime := ⟨hp⟩
  have hne : (a : ZMod p) ≠ 0 := mt (ZMod.natCast_eq_zero_iff a p).1 ha
  have hfermat : ((a : ZMod p) ^ d) ^ 2 ^ s = 1 := by
    rw [← pow_mul, ← ZMod.pow_card_sub_one_eq_one hne]
    congr 1
    omega
  have hminus : ((p - 1 : Nat) : ZMod p) = -1 := by
    rw [Nat.cast_sub hp.one_le, ZMod.natCast_self, Nat.cast_one, zero_sub]
  rcases eq_one_or_neg_one_of_pow_two_pow hfermat with hone | ⟨r, hr, hneg⟩
  · left
    have hcast : ((a ^ d : Nat) : ZMod p) = (1 : Nat) := by
      rw [Nat.cast_pow, hone, Nat.cast_one]
    rw [ZMod.natCast_eq_natCast_iff', Nat.mod_eq_of_lt hp.one_lt] at hcast
    exact hcast
  · right
    have hcast : ((a ^ (d * 2 ^ r) : Nat) : ZMod p) = (p - 1 : Nat) := by
      rw [Nat.cast_pow, pow_mul, hneg, hminus]
    rw [ZMod.natCast_eq_natCast_iff',
      Nat.mod_eq_of_lt (Nat.sub_one_lt hp.ne_zero)] at hcast
    exact ⟨r, hr, hcast⟩

/-- A prime is a witness, or no witness divides it and it divides no witness. -/
theorem probablePrime_of_prime {p : Nat} (hp : p.Prime) : ProbablePrime p := by
  by_cases hmem : p ∈ witnesses
  · exact Or.inl hmem
  · have hdvd : ∀ q ∈ witnesses, ¬ q ∣ p := by
      intro q hq h
      rw [(Nat.prime_dvd_prime_iff_eq (prime_of_mem_witnesses hq) hp).1 h] at hq
      exact hmem hq
    have hodd : p % 2 = 1 := by
      have htwo := hdvd 2 (by decide)
      omega
    obtain ⟨d, s, hsplit, hd, _⟩ := exists_odd_part hp.one_lt hodd
    refine Or.inr ⟨hp.one_lt, hdvd, d, s, hsplit, hd, fun a ha => ?_⟩
    refine strong_of_prime hp hsplit fun h => hmem ?_
    rw [(Nat.prime_dvd_prime_iff_eq hp (prime_of_mem_witnesses ha)).1 h]
    exact ha

end KroneckerCode.Primality

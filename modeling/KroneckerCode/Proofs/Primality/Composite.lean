import KroneckerCode.Proofs.Primality.Strong

/-!
# What passes and is no prime

Every prime passes the tests, so they can only be wrong about a composite
number, and only about one that is strong to all twelve witnesses. No witness
divides such a number: modulo a multiple of `a` no power of `a` is one or minus
one. So the division in front of the tests rejects nothing that the strong tests
would not reject, and whether the tests are right on all numbers below a bound
is one question about strong numbers, `NoStrongComposite`.

Below `2^64` the answer is known, from a search that no proof here repeats.
Below `41^2` it is plain, because a composite number there has a divisor among
the witnesses.
-/

namespace KroneckerCode.Primality

/-- No composite number below `bound` is strong to all witnesses. -/
def NoStrongComposite (bound : Nat) : Prop :=
  ∀ n < bound, 1 < n → StrongToWitnesses n → n.Prime

theorem not_strong_of_dvd {n d s a : Nat} (hn : 1 < n) (hd : 0 < d)
    (ha : 1 < a) (hdvd : a ∣ n) : ¬ Strong n d s a := by
  have hpower : ∀ e, 0 < e → a ∣ a ^ e % n := by
    intro e he
    rw [Nat.dvd_mod_iff hdvd]
    exact dvd_pow_self a (Nat.ne_of_gt he)
  rintro (hone | ⟨r, _, hminus⟩)
  · have hunit := hpower d hd
    rw [hone, Nat.dvd_one] at hunit
    omega
  · have hbefore := hpower (d * 2 ^ r) (Nat.mul_pos hd (Nat.two_pow_pos r))
    rw [hminus] at hbefore
    -- it would divide two neighbours
    have hunit := Nat.dvd_sub hdvd hbefore
    rw [Nat.sub_sub_self (Nat.le_of_lt hn), Nat.dvd_one] at hunit
    omega

theorem StrongToWitnesses.not_dvd {n : Nat} (h : StrongToWitnesses n)
    (hn : 1 < n) : ∀ p ∈ witnesses, ¬ p ∣ n := by
  obtain ⟨d, s, _, hd, hall⟩ := h
  intro p hp hdvd
  have hone := (prime_of_mem_witnesses hp).one_lt
  exact not_strong_of_dvd hn (by omega) hone hdvd (hall p hp)

/-- Passing means being prime below a bound exactly if no composite number
there is strong to all witnesses. -/
theorem noStrongComposite_iff (bound : Nat) :
    NoStrongComposite bound ↔ ∀ n < bound, ProbablePrime n → n.Prime := by
  constructor
  · intro h n hlt hpass
    rcases hpass with hmem | ⟨hn, _, hstrong⟩
    · exact prime_of_mem_witnesses hmem
    · exact h n hlt hn hstrong
  · intro h n hlt hn hstrong
    exact h n hlt (Or.inr ⟨hn, hstrong.not_dvd hn, hstrong⟩)

theorem noStrongComposite_square : NoStrongComposite (41 * 41) := by
  have hsmall : ∀ p < 41, p.Prime → p ∈ witnesses := by decide
  intro n hlt hn hstrong
  by_contra hcomposite
  have hsquare := Nat.minFac_sq_le_self (Nat.zero_lt_of_lt hn) hcomposite
  have hleast : n.minFac < 41 := by
    rw [Nat.pow_two] at hsquare
    exact Nat.mul_self_lt_mul_self_iff.1 (Nat.lt_of_le_of_lt hsquare hlt)
  have hmem := hsmall _ hleast (Nat.minFac_prime (Nat.ne_of_gt hn))
  exact hstrong.not_dvd hn _ hmem n.minFac_dvd

end KroneckerCode.Primality

import KroneckerCode.Proofs.Integer.Prime

/-!
# Rounding up to a prime ends, and at the first one

The search for the next prime is run on fuel, and the loop it stands for has
none: it goes on for as long as the candidate does not pass. `Finds` is that
loop and `RoundsUp` the rounding around it, each given by its steps alone, so
that a derivation is a run which has ended. Every integer has one, and where it
ends is what the fuelled search answers (`roundsUp_iff`): the fuel is
bookkeeping, not a bound.

That a run ends is not a matter of the loop. There is a prime above every
number, and the test rejects no prime, so a candidate passes at last. Where a
run ends is then fixed by the value it starts from: at the first number that
passes, from there on.
-/

namespace KroneckerCode.Integer

open Primality

variable {a p q : Integer}

/-- The search among `a, a + 2, a + 4, …` ends at `p`. -/
inductive Finds : Integer → Integer → Prop
  | here {a : Integer} (passes : a.isPrime = true) : Finds a a
  | further {a p : Integer} (fails : a.isPrime = false)
      (rest : Finds (a + inline 2) p) : Finds a p

/-- Rounding `a` up to a prime ends at `p`. -/
inductive RoundsUp : Integer → Integer → Prop
  | least {a : Integer} (small : a.value ≤ 2) : RoundsUp a (inline 2)
  | search {a p : Integer} (big : 2 < a.value) (found : Finds a.firstOdd p) :
      RoundsUp a p

/-! ## There is one end -/

theorem Finds.unique (hp : Finds a p) (hq : Finds a q) : p = q := by
  induction hp with
  | here passes =>
      cases hq with
      | here _ => rfl
      | further fails _ =>
          rw [passes] at fails
          cases fails
  | further fails _ ih =>
      cases hq with
      | here passes =>
          rw [passes] at fails
          cases fails
      | further _ rest => exact ih rest

theorem RoundsUp.unique (hp : RoundsUp a p) (hq : RoundsUp a q) : p = q := by
  cases hp with
  | least small =>
      cases hq with
      | least _ => rfl
      | search big _ => omega
  | search big found =>
      cases hq with
      | least small => omega
      | search _ found' => exact found.unique found'

/-- A search on fuel that answers with a number that passes has come to the end
of the search without. -/
theorem finds_nextPrimeFrom {fuel : Nat}
    (h : (nextPrimeFrom fuel a).isPrime = true) :
    Finds a (nextPrimeFrom fuel a) := by
  induction fuel generalizing a with
  | zero => exact .here h
  | succ fuel ih =>
      rw [nextPrimeFrom] at h ⊢
      split at h
      · next passes =>
          rw [if_pos passes]
          exact .here passes
      · next fails =>
          rw [if_neg fails]
          exact .further (Bool.eq_false_iff.2 fails) (ih h)

theorem roundsUp_nextPrime (a : Integer) : RoundsUp a a.nextPrime := by
  have hpass := isPrime_nextPrime a
  by_cases h : 2 < a.value
  · rw [nextPrime_of_two_lt h] at hpass ⊢
    exact .search h (finds_nextPrimeFrom hpass)
  · rw [nextPrime_of_le_two (Int.not_lt.1 h)]
    exact .least (Int.not_lt.1 h)

theorem roundsUp_iff : RoundsUp a p ↔ p = a.nextPrime := by
  constructor
  · intro h
    exact h.unique (roundsUp_nextPrime a)
  · rintro rfl
    exact roundsUp_nextPrime a

/-! ## It is the first number that passes -/

theorem two_le_of_isPrime (h : a.isPrime = true) : 2 ≤ a.value := by
  have hone := ((isPrime_iff a).1 h).one_lt
  omega

theorem nextPrime_le_of_isPrime (hle : a.value ≤ q.value)
    (hq : q.isPrime = true) : a.nextPrime.value ≤ q.value := by
  have htwo := two_le_of_isPrime hq
  have hnext := nextPrime_le (a := a) (by omega) ((isPrime_iff q).1 hq)
  omega

theorem nextPrime_mono (h : a.value ≤ q.value) :
    a.nextPrime.value ≤ q.nextPrime.value :=
  nextPrime_le_of_isPrime (h.trans (value_le_value_nextPrime q))
    (isPrime_nextPrime q)

/-- Above two, what passes is odd, and the search ends where it begins. -/
theorem nextPrime_of_isPrime (h : 2 < a.value) (hpass : a.isPrime = true) :
    a.nextPrime = a := by
  have hodd : a.value % 2 = 1 := by
    by_contra heven
    have htwo := ((isPrime_iff a).1 hpass).eq_of_dvd (p := 2) (by decide)
      (by omega)
    omega
  have hfirst := firstOdd_of_odd hodd
  refine (roundsUp_iff.1 (.search h ?_)).symm
  rw [hfirst]
  exact .here hpass

theorem nextPrime_nextPrime (a : Integer) :
    a.nextPrime.nextPrime = a.nextPrime := by
  by_cases h : 2 < a.nextPrime.value
  · exact nextPrime_of_isPrime h (isPrime_nextPrime a)
  · have hle := value_le_value_nextPrime a
    rw [nextPrime_of_le_two (a := a) (by omega)]
    exact nextPrime_of_le_two (Int.le_refl 2)

/-- Rounding up to a prime ends for every integer. It ends at a number that
passes, at or above two and the number itself, and nothing that passes is
between. So no prime is stepped over, what passes is its own next prime, and
the next prime of a greater integer is not less. -/
theorem rounding_up_ends :
    (∀ a p : Integer, RoundsUp a p ↔ p = a.nextPrime) ∧
    (∀ a : Integer, a.value ≤ a.nextPrime.value ∧ 2 ≤ a.nextPrime.value ∧
      a.nextPrime.isPrime = true ∧
      ∀ b : Integer, a.value ≤ b.value → b.value < a.nextPrime.value →
        b.isPrime = false) ∧
    (∀ (a : Integer) (q : Nat), q.Prime → a.value ≤ q →
      a.nextPrime.value ≤ q) ∧
    (∀ a : Integer, a.nextPrime.nextPrime = a.nextPrime) ∧
    (∀ a : Integer, a.isPrime = true → a.nextPrime.value = a.value) ∧
    ∀ a b : Integer, a.value ≤ b.value →
      a.nextPrime.value ≤ b.nextPrime.value := by
  refine ⟨fun a p => roundsUp_iff, ?_, ?_, nextPrime_nextPrime, ?_,
    fun a b h => nextPrime_mono h⟩
  · intro a
    have hpass := isPrime_nextPrime a
    refine ⟨value_le_value_nextPrime a, two_le_of_isPrime hpass, hpass, ?_⟩
    intro b hle hlt
    by_contra hb
    have hnext := nextPrime_le_of_isPrime hle (eq_true_of_ne_false hb)
    omega
  · intro a q hq hle
    exact nextPrime_le hle (probablePrime_of_prime hq)
  · intro a h
    have hle := nextPrime_le_of_isPrime (Int.le_refl a.value) h
    have hge := value_le_value_nextPrime a
    omega

/-- From the greatest word the search leaves the words, and from just below
`2 ^ 64` it comes from one test to the other. -/
theorem rounding_up_ends_past_words :
    RoundsUp (inline 9223372036854775807) (large 9223372036854775837) ∧
    RoundsUp (large 18446744073709551558) (large 18446744073709551629) ∧
    (large 18446744073709551617).isPrime = false ∧
    Nat.Prime 97 ∧ (inline 90).nextPrime.value ≤ 97 ∧
    (large 2).isPrime = true ∧ (large 2).nextPrime.value = 2 ∧
    (inline (-7)).nextPrime.value ≤ (inline 90).nextPrime.value := by
  obtain ⟨hends, hfirst, hprimes, _, hfixed, hmono⟩ := rounding_up_ends
  have hnext : large 18446744073709551629 =
      (large 18446744073709551558).nextPrime := by decide +kernel
  have hprime : Nat.Prime 97 := by norm_num
  have htwo : (large 2).isPrime = true := by decide +kernel
  have hbetween : (large 18446744073709551617).isPrime = false := by
    refine (hfirst (large 18446744073709551558)).2.2.2 _ (by decide) ?_
    rw [← hnext]
    decide
  exact ⟨(hends _ _).2 (by decide +kernel), (hends _ _).2 hnext, hbetween,
    hprime, hprimes _ _ hprime (by decide), htwo, hfixed _ htwo,
    hmono _ _ (by decide)⟩

end KroneckerCode.Integer

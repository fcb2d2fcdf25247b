import KroneckerCode.Proofs.Integer.Prime
import KroneckerCode.Proofs.Primality.Composite
import KroneckerCode.Proofs.Primality.Exact
import Mathlib.NumberTheory.LucasPrimality

/-!
# Which integers pass for primes

An integer is tested in words or without bounds, by its size and not by its
storage, and both ways decide `ProbablePrime` of its value. Two results follow.

No prime is ever rejected, so what is rejected above one is a product. And the
answer is exact below a bound if and only if no composite number below it is
strong to all witnesses (`exact_below_iff`): for `2^64` that is what the twelve
witnesses were chosen for.

That a given number above `2^64` is prime is no matter of division any more. It
is seen from its powers, with the loop that the test itself is made of.
-/

namespace KroneckerCode.Primality

/-! ## A prime that is not a word

A number is prime if the powers of some `a` modulo it come back to one no sooner
than at the exponent `p - 1`. It is enough to look at the exponents that a prime
divides out of that one. -/

theorem prime_of_powMod {p : Nat} (hp : 1 < p) (a : Nat)
    (hone : Unbounded.powMod a (p - 1) p = 1)
    (hbefore : ∀ q, q.Prime → q ∣ p - 1 →
      Unbounded.powMod a ((p - 1) / q) p ≠ 1) : p.Prime := by
  have hpower : ∀ e, (a : ZMod p) ^ e = 1 ↔ Unbounded.powMod a e p = 1 := by
    intro e
    have hcast := ZMod.natCast_eq_natCast_iff' (a ^ e) 1 p
    rw [Nat.cast_pow, Nat.cast_one, Nat.mod_eq_of_lt hp] at hcast
    rw [hcast, Unbounded.powMod_eq hp]
  refine lucas_primality p a ((hpower _).2 hone) fun q hq hdvd => ?_
  exact mt (hpower _).1 (hbefore q hq hdvd)

/-- The number `3 * 2 ^ 66 + 1`, for which a test takes up to 65 squares. -/
theorem prime_three_mul_two_pow : Nat.Prime 221360928884514619393 := by
  refine prime_of_powMod (by decide) 10 (by decide +kernel) ?_
  intro q hq hdvd
  have hsplit : q ∣ 2 ^ 66 * 3 := hdvd
  rcases hq.dvd_mul.1 hsplit with htwo | hthree
  · obtain rfl := (Nat.prime_dvd_prime_iff_eq hq Nat.prime_two).1
      (hq.dvd_of_dvd_pow htwo)
    decide +kernel
  · obtain rfl := (Nat.prime_dvd_prime_iff_eq hq Nat.prime_three).1 hthree
    decide +kernel

end KroneckerCode.Primality

namespace KroneckerCode.Integer

open Primality

/-! ## The verdict on a value -/

theorem isPrime_iff_exists (a : Integer) :
    a.isPrime = true ↔ ∃ n : Nat, a.value = n ∧ ProbablePrime n := by
  rw [isPrime_iff]
  constructor
  · intro h
    have hone := h.one_lt
    exact ⟨a.value.toNat, by omega, h⟩
  · rintro ⟨n, hn, h⟩
    rw [hn, Int.toNat_natCast]
    exact h

/-- What is rejected above one is a product. -/
theorem exists_mul_of_isPrime_eq_false {a : Integer} (htwo : 2 ≤ a.value)
    (h : a.isPrime = false) :
    ∃ x y : Nat, 1 < x ∧ 1 < y ∧ a.value = (x * y : Nat) := by
  have hcast : a.value = a.value.toNat := by omega
  have hcomposite : ¬ a.value.toNat.Prime := by
    intro hp
    rw [isPrime_of_prime hp hcast] at h
    cases h
  obtain ⟨x, y, hx, hy, hmul⟩ :=
    (Nat.not_prime_iff_exists_mul_eq (by omega)).1 hcomposite
  rw [← hmul] at hcast
  refine ⟨x, y, ?_, ?_, hcast⟩
  · by_contra hle
    interval_cases x <;> omega
  · by_contra hle
    interval_cases y <;> omega

theorem exact_below_iff (bound : Nat) :
    NoStrongComposite bound ↔ ∀ a : Integer, a.value < bound →
      (a.isPrime = true ↔ ∃ p : Nat, p.Prime ∧ a.value = p) := by
  rw [noStrongComposite_iff]
  constructor
  · intro h a hlt
    rw [isPrime_iff_exists]
    constructor
    · rintro ⟨n, hn, hpass⟩
      exact ⟨n, h n (by omega) hpass, hn⟩
    · rintro ⟨p, hp, hval⟩
      exact ⟨p, hval, probablePrime_of_prime hp⟩
  · intro h n hlt hpass
    have hval := value_ofInt n
    obtain ⟨p, hp, heq⟩ := (h (ofInt n) (by omega)).1
      ((isPrime_iff_exists _).2 ⟨n, hval, hpass⟩)
    obtain rfl : n = p := by omega
    exact hp

/-! ## No prime is rejected -/

/-- Both tests accept every prime that they are asked about, so an integer that
is prime passes in either storage. -/
theorem primes_pass :
    (∀ (a : Integer) (q : Nat), q.Prime → a.value = q → a.isPrime = true) ∧
    (∀ w : UInt64, w.toNat.Prime → isPrimeWord w = true) ∧
    (∀ q : Nat, q.Prime → twoPow 64 ≤ q →
      Unbounded.isProbablePrime q = true) ∧
    ∀ a : Integer, 2 ≤ a.value → a.isPrime = false →
      ∃ x y : Nat, 1 < x ∧ 1 < y ∧ a.value = (x * y : Nat) := by
  have hbig : 38 ≤ twoPow 64 := by decide
  refine ⟨?_, ?_, ?_, ?_⟩
  · intro a q hq h
    exact isPrime_of_prime hq h
  · intro w hw
    exact (isPrimeWord_iff w).2 (probablePrime_of_prime hw)
  · intro q hq hle
    rw [Unbounded.isProbablePrime_iff hq.one_lt
      (not_mem_witnesses (hbig.trans hle))]
    exact probablePrime_of_prime hq
  · intro a htwo h
    exact exists_mul_of_isPrime_eq_false htwo h

/-- A prime above `2 ^ 64`, primes in words and in both storages, and a number
that only the bases above seven tell from a prime. -/
theorem primes_pass_three_mul_two_pow :
    Nat.Prime 221360928884514619393 ∧
    Unbounded.isProbablePrime 221360928884514619393 = true ∧
    (large 221360928884514619393).isPrime = true ∧
    isPrimeWord 65537 = true ∧
    (inline 65537).isPrime = true ∧ (large 65537).isPrime = true ∧
    (large 3215031751).isPrime = false ∧
    ∃ x y : Nat, 1 < x ∧ 1 < y ∧ (3215031751 : Int) = (x * y : Nat) := by
  obtain ⟨hintegers, hwords, hbig, hrejected⟩ := primes_pass
  have hprime : Nat.Prime 65537 := by norm_num
  have hreject : (large 3215031751).isPrime = false := by decide +kernel
  exact ⟨prime_three_mul_two_pow,
    hbig _ prime_three_mul_two_pow (by decide),
    hintegers _ _ prime_three_mul_two_pow rfl, hwords 65537 hprime,
    hintegers _ _ hprime rfl, hintegers _ _ hprime rfl, hreject,
    hrejected _ (by decide) hreject⟩

/-! ## What passes -/

/-- Both tests decide the same predicate, the one in words without ever wrapping
and the other from 38 on, with fewer halvings than binary digits. They are exact
below a bound if and only if no composite number below it is strong to all
witnesses. -/
theorem tests_decide_probablePrime :
    (∀ a : Integer, a.isPrime = true ↔
      ∃ n : Nat, a.value = n ∧ ProbablePrime n) ∧
    (∀ w : UInt64, isPrimeWord? w = some (isPrimeWord w) ∧
      (isPrimeWord w = true ↔ ProbablePrime w.toNat)) ∧
    (∀ n : Nat, 38 ≤ n →
      (Unbounded.isProbablePrime n = true ↔ ProbablePrime n) ∧
      (Unbounded.oddPart (n - 1)).2 < KroneckerCode.bitLength (n - 1)) ∧
    ∀ bound : Nat, NoStrongComposite bound ↔
      ∀ a : Integer, a.value < bound →
        (a.isPrime = true ↔ ∃ p : Nat, p.Prime ∧ a.value = p) := by
  refine ⟨isPrime_iff_exists, ?_, ?_, exact_below_iff⟩
  · intro w
    exact ⟨isPrimeWord?_eq w, isPrimeWord_iff w⟩
  · intro n hn
    exact ⟨Unbounded.isProbablePrime_iff (by omega) (not_mem_witnesses hn),
      Unbounded.oddPart_snd_lt_bitLength (by omega)⟩

/-- A number that is strong to 2, 3, 5 and 7 and is found out by 11, and the
bound up to which the witnesses are known to be enough without a search. -/
theorem tests_decide_probablePrime_strong_to_seven :
    38 ≤ 3215031751 ∧ Unbounded.isProbablePrime 3215031751 = false ∧
    ¬ ProbablePrime 3215031751 ∧
    isPrimeWord? 3215031751 = some false ∧
    NoStrongComposite (41 * 41) ∧
    ∀ a : Integer, a.value < (41 * 41 : Nat) →
      (a.isPrime = true ↔ ∃ p : Nat, p.Prime ∧ a.value = p) := by
  obtain ⟨_, hwords, hbig, hexact⟩ := tests_decide_probablePrime
  have hsize : 38 ≤ 3215031751 := by decide
  have hrejected : Unbounded.isProbablePrime 3215031751 = false := by
    decide +kernel
  have hnot : ¬ ProbablePrime 3215031751 := by
    intro h
    rw [(hbig _ hsize).1.2 h] at hrejected
    cases hrejected
  have hword : isPrimeWord 3215031751 = false :=
    Bool.eq_false_iff.2 (mt (hwords 3215031751).2.1 hnot)
  exact ⟨hsize, hrejected, hnot, by rw [(hwords _).1, hword],
    noStrongComposite_square, (hexact _).1 noStrongComposite_square⟩

end KroneckerCode.Integer

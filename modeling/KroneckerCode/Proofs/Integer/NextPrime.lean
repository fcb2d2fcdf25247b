import KroneckerCode.Integer.Lemmas
import KroneckerCode.Integer.Prime

/-!
# Where the next prime lies

The search for the next prime steps over the odd numbers. Long before anything
is known about the primes it stops at, two facts are certain: it never goes
down, and from a number above two it stops at an odd one. They hold whatever the
primality test answers and whenever the fuel ends, because every step adds two
to an odd number.
-/

namespace KroneckerCode.Integer

/-- The order of integers is that of their values, whatever their storage. -/
theorem compare_eq (a b : Integer) :
    a.compare b = Ord.compare a.value b.value := by
  cases a with
  | large n => rfl
  | inline x =>
      cases b with
      | large n => rfl
      | inline y =>
          simp only [compare, value]
          by_cases hlt : x < y
          · rw [if_pos hlt, Int.compare_eq_lt.2 (Int64.lt_iff_toInt_lt.1 hlt)]
          · have hge := mt Int64.lt_iff_toInt_lt.2 hlt
            rw [if_neg hlt]
            by_cases heq : x = y
            · rw [if_pos heq, heq, Int.compare_eq_eq.2 rfl]
            · have hne := mt Int64.toInt_inj.1 heq
              rw [if_neg heq, Int.compare_eq_gt.2 (by omega)]

theorem isEven_iff (a : Integer) : a.isEven = true ↔ a.value % 2 = 0 := by
  cases a with
  | large n => simp only [isEven, value, beq_iff_eq]
  | inline x =>
      have h : x % 2 = 0 ↔ x.toInt.tmod 2 = 0 := by
        rw [← Int64.toInt_inj, Int64.toInt_mod]
        rfl
      simp only [isEven, value, beq_iff_eq, h]
      rw [← Int.dvd_iff_tmod_eq_zero, Int.dvd_iff_emod_eq_zero]

theorem value_add_two (a : Integer) : (a + inline 2).value = a.value + 2 :=
  value_add a (inline 2)

theorem value_nextPrimeFrom (fuel : Nat) (a : Integer) :
    ∃ k : Nat, (nextPrimeFrom fuel a).value = a.value + 2 * k := by
  induction fuel generalizing a with
  | zero => exact ⟨0, by rw [nextPrimeFrom]; omega⟩
  | succ fuel ih =>
      rw [nextPrimeFrom]
      split
      · exact ⟨0, by omega⟩
      · obtain ⟨k, hk⟩ := ih (a + inline 2)
        refine ⟨k + 1, ?_⟩
        rw [hk, value_add_two]
        omega

theorem nextPrime_of_le_two {a : Integer} (h : a.value ≤ 2) :
    a.nextPrime = inline 2 := by
  rw [nextPrime, compare_eq]
  split
  · next hgt =>
      have hlt : 2 < a.value := Int.compare_eq_gt.1 hgt
      omega
  · rfl

theorem value_nextPrime_of_le_two {a : Integer} (h : a.value ≤ 2) :
    a.nextPrime.value = 2 := by
  rw [nextPrime_of_le_two h]
  rfl

/-- The number itself or, if that is even, the one after it. -/
def firstOdd (a : Integer) : Integer := if a.isEven then a + inline 1 else a

theorem value_firstOdd (a : Integer) :
    a.firstOdd.value % 2 = 1 ∧ a.value ≤ a.firstOdd.value ∧
      a.firstOdd.value ≤ a.value + 1 := by
  have hone : (inline 1).value = 1 := rfl
  rw [firstOdd]
  split
  · next heven =>
      have hzero := (isEven_iff a).1 heven
      rw [value_add, hone]
      omega
  · next hodd =>
      have hne := mt (isEven_iff a).2 hodd
      omega

theorem firstOdd_of_odd {a : Integer} (h : a.value % 2 = 1) :
    a.firstOdd = a := by
  refine if_neg fun heven => ?_
  have hzero := (isEven_iff a).1 heven
  omega

theorem nextPrime_of_two_lt {a : Integer} (h : 2 < a.value) :
    a.nextPrime = nextPrimeFrom a.firstOdd.value.toNat a.firstOdd := by
  have hgt : a.compare (inline 2) = .gt := by
    rw [compare_eq]
    exact Int.compare_eq_gt.2 h
  rw [nextPrime]
  simp only [hgt, firstOdd]

/-- Above two the next prime is not below, and it is odd. -/
theorem value_nextPrime_of_two_lt {a : Integer} (h : 2 < a.value) :
    a.value ≤ a.nextPrime.value ∧ a.nextPrime.value % 2 = 1 := by
  obtain ⟨hodd, hle, _⟩ := value_firstOdd a
  obtain ⟨k, hk⟩ := value_nextPrimeFrom a.firstOdd.value.toNat a.firstOdd
  rw [nextPrime_of_two_lt h, hk]
  omega

theorem value_le_value_nextPrime (a : Integer) :
    a.value ≤ a.nextPrime.value := by
  by_cases h : 2 < a.value
  · exact (value_nextPrime_of_two_lt h).1
  · rw [value_nextPrime_of_le_two (by omega)]
    omega

end KroneckerCode.Integer

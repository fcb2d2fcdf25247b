/-!
# Powers of two and binary digits

Widths of words and positions of digits are counted in powers of two. They are
written `twoPow k` throughout, one function with its own few laws, and the
length of a number in binary digits is its counterpart.
-/

namespace KroneckerCode

/-- Two to the power of `k`. -/
def twoPow (k : Nat) : Nat := Nat.pow 2 k

theorem twoPow_succ (k : Nat) : twoPow (k + 1) = 2 * twoPow k :=
  Nat.mul_comm (twoPow k) 2

theorem twoPow_pos (k : Nat) : 0 < twoPow k := Nat.two_pow_pos k

/-- The number of binary digits of `n`; zero has none. -/
def bitLength (n : Nat) : Nat := if n = 0 then 0 else n.log2 + 1

/-- The numbers of at most `k` binary digits are those below `twoPow k`. -/
theorem bitLength_le_iff {n k : Nat} : bitLength n ≤ k ↔ n < twoPow k := by
  unfold bitLength
  split
  next h =>
    subst h
    exact ⟨fun _ => twoPow_pos k, fun _ => Nat.zero_le k⟩
  next h => exact Nat.log2_lt h

end KroneckerCode

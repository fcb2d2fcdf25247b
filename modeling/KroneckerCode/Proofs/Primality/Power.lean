import KroneckerCode.Primality.Machine
import KroneckerCode.Primality.Unbounded
import Mathlib.Data.Nat.ModEq
import Mathlib.Tactic.Ring

/-!
# Modular powers are exact

Two loops square and multiply, one along a machine word that it shifts to the
right, the other along the digits of a number by their positions. Both keep the
same quantity, `result * base ^ e` modulo `m` where `e` is the part of the
exponent that is left, and one turn of either splits the last binary digit off
`e`. That step is arithmetic alone and is stated once, for an odd and for an
even `e`.

In words there is the multiplication to be settled first. A product of two words
is a double word and its remainder a word again, so nothing is cut off.
-/

namespace KroneckerCode.Primality

/-! ## One turn of either loop -/

theorem square_multiply_odd (r b m k : Nat) :
    r * b % m * (b * b % m) ^ k % m = r * b ^ (2 * k + 1) % m := by
  have hsq : (b * b % m) ^ k ≡ (b * b) ^ k [MOD m] := (Nat.mod_modEq _ m).pow k
  have hmul := (Nat.mod_modEq (r * b) m).mul hsq
  rw [Nat.ModEq] at hmul
  rw [hmul]
  ring_nf

theorem square_multiply_even (r b m k : Nat) :
    r * (b * b % m) ^ k % m = r * b ^ (2 * k) % m := by
  have hsq : (b * b % m) ^ k ≡ (b * b) ^ k [MOD m] := (Nat.mod_modEq _ m).pow k
  have hmul := hsq.mul_left r
  rw [Nat.ModEq] at hmul
  rw [hmul]
  ring_nf

/-! ## In words -/

theorem toNat_mulMod {a b m : UInt64} (hm : 0 < m.toNat) :
    (mulMod a b m).toNat = a.toNat * b.toNat % m.toNat := by
  have ha := a.toNat_lt
  have hb := b.toNat_lt
  have hmlt := m.toNat_lt
  have hprod : a.toNat * b.toNat < 2 ^ 128 := by
    calc a.toNat * b.toNat < 2 ^ 64 * 2 ^ 64 := Nat.mul_lt_mul'' ha hb
      _ = 2 ^ 128 := by decide
  have hrest := Nat.mod_lt (a.toNat * b.toNat) hm
  have hword : ∀ x : UInt64, (x.toBitVec.setWidth 128).toNat = x.toNat := by
    intro x
    rw [BitVec.toNat_setWidth, UInt64.toNat_toBitVec]
    exact Nat.mod_eq_of_lt (x.toNat_lt.trans (by decide))
  show ((_ % _ : BitVec 128).setWidth 64).toNat = _
  rw [BitVec.toNat_setWidth, BitVec.toNat_umod, BitVec.toNat_mul, hword, hword,
    hword, Nat.mod_eq_of_lt hprod]
  exact Nat.mod_eq_of_lt (hrest.trans hmlt)

theorem toNat_shiftRight_one (x : UInt64) : (x >>> 1).toNat = x.toNat / 2 := by
  rw [UInt64.toNat_shiftRight]
  rfl

theorem toNat_and_one (x : UInt64) : (x &&& 1).toNat = x.toNat % 2 := by
  rw [UInt64.toNat_and, UInt64.toNat_one, Nat.and_one_is_mod]

theorem and_one_eq_one_iff (x : UInt64) : x &&& 1 = 1 ↔ x.toNat % 2 = 1 := by
  rw [← UInt64.toNat_inj, toNat_and_one, UInt64.toNat_one]

theorem toNat_powModFrom {m result base exp : UInt64}
    (hr : result.toNat < m.toNat) :
    (powModFrom m result base exp).toNat =
      result.toNat * base.toNat ^ exp.toNat % m.toNat := by
  fun_induction powModFrom m result base exp with
  | case1 result base =>
      rw [UInt64.toNat_zero, Nat.pow_zero, Nat.mul_one, Nat.mod_eq_of_lt hr]
  | case2 result base exp _ ih =>
      have hm : 0 < m.toNat := Nat.zero_lt_of_lt hr
      by_cases hodd : exp &&& 1 = 1
      · have hexp : exp.toNat = 2 * (exp.toNat / 2) + 1 := by
          have := (and_one_eq_one_iff exp).1 hodd
          omega
        have hrest := Nat.mod_lt (result.toNat * base.toNat) hm
        rw [dif_pos hodd] at ih
        rw [if_pos hodd]
        rw [toNat_mulMod hm, toNat_mulMod hm, toNat_shiftRight_one] at ih
        rw [ih hrest, square_multiply_odd, ← hexp]
      · have hexp : exp.toNat = 2 * (exp.toNat / 2) := by
          have := mt (and_one_eq_one_iff exp).2 hodd
          omega
        rw [dif_neg hodd] at ih
        rw [if_neg hodd]
        rw [toNat_mulMod hm, toNat_shiftRight_one] at ih
        rw [ih hr, square_multiply_even, ← hexp]

/-- Powers of words are exact for every modulus above one. -/
theorem toNat_powMod {base exp m : UInt64} (hm : 1 < m.toNat) :
    (powMod base exp m).toNat = base.toNat ^ exp.toNat % m.toNat := by
  have hone : (1 : UInt64).toNat < m.toNat := hm
  rw [powMod, toNat_powModFrom hone, UInt64.toNat_one, Nat.one_mul,
    UInt64.toNat_mod, ← Nat.pow_mod]

/-! ## In numbers of any size -/

namespace Unbounded

/-- The digits that are left are those of `exp` from position `i` on. -/
theorem powModFrom_eq {m exp k i result base : Nat} (hr : result < m) :
    powModFrom m exp k i result base =
      result * base ^ (exp / 2 ^ i % 2 ^ k) % m := by
  induction k generalizing i result base with
  | zero =>
      rw [powModFrom, Nat.pow_zero, Nat.mod_one, Nat.pow_zero, Nat.mul_one,
        Nat.mod_eq_of_lt hr]
  | succ k ih =>
      have hm : 0 < m := Nat.zero_lt_of_lt hr
      have hsplit : exp / 2 ^ i % 2 ^ (k + 1) =
          2 * (exp / 2 ^ (i + 1) % 2 ^ k) + exp / 2 ^ i % 2 := by
        rw [Nat.pow_succ' (n := k), Nat.mod_mul, Nat.div_div_eq_div_mul,
          ← Nat.pow_succ, Nat.add_comm]
      have hdigit : exp.testBit i = decide (exp / 2 ^ i % 2 = 1) :=
        Nat.testBit_eq_decide_div_mod_eq
      rw [powModFrom]
      by_cases hodd : exp / 2 ^ i % 2 = 1
      · have hrest := Nat.mod_lt (result * base) hm
        rw [hdigit, decide_eq_true hodd, if_pos rfl, ih hrest, hsplit,
          hodd, square_multiply_odd]
      · have heven : exp / 2 ^ i % 2 = 0 := by omega
        rw [heven, Nat.add_zero (2 * _)] at hsplit
        rw [hdigit, decide_eq_false hodd, if_neg Bool.false_ne_true, ih hr,
          square_multiply_even, hsplit]

theorem powMod_eq {base exp m : Nat} (hm : 1 < m) :
    powMod base exp m = base ^ exp % m := by
  have hall : exp % 2 ^ bitLength exp = exp :=
    Nat.mod_eq_of_lt (bitLength_le_iff.1 (Nat.le_refl _))
  rw [powMod, powModFrom_eq hm, Nat.pow_zero, Nat.div_one, hall, Nat.one_mul,
    ← Nat.pow_mod]

end Unbounded

end KroneckerCode.Primality

import KroneckerCode.Integer.Lemmas
import Mathlib.Algebra.Order.Ring.Int
import Mathlib.Tactic.Ring

/-!
# Powers, quotients and remainders are exact

A power is computed by squaring, with a check in every step. No check is one too
many: the last square that is computed is used, so it is a factor of the result,
and a result that fits has no factor that does not, but for the sign. A square
has no sign, and the one number that fits only with a sign is no square
(`exists_word_of_square`). So the fast way answers wherever there is an answer
(`pow_eq_some_iff`). Of a division the quotient and the remainder are got apart,
and fit together again.
-/

namespace KroneckerCode

namespace Checked

theorem pow_eq_mul_pow_div_two (acc base : Int) (exp : Nat) :
    acc * base ^ exp = acc * base ^ (exp % 2) * (base * base) ^ (exp / 2) := by
  calc acc * base ^ exp = acc * base ^ (2 * (exp / 2) + exp % 2) := by
        rw [Nat.div_add_mod]
    _ = acc * base ^ (exp % 2) * (base * base) ^ (exp / 2) := by ring

/-- One step of the loop takes a digit off the exponent. -/
theorem powFrom_step_iff {acc base p : Int64} {exp : Nat}
    (hexp : 1 < exp) :
    powFrom acc base exp = some p ↔
      ∃ acc' base', acc'.toInt = acc.toInt * base.toInt ^ (exp % 2) ∧
        base'.toInt = base.toInt * base.toInt ∧
        powFrom acc' base' (exp / 2) = some p := by
  rw [powFrom, if_neg (by omega)]
  split
  · next hodd =>
      simp only [bind, Option.bind_eq_some_iff, mul_eq_some_iff, hodd, pow_one,
        exists_and_left]
  · next heven =>
      have hzero := Nat.mod_two_ne_one.1 heven
      simp only [bind, Option.bind_eq_some_iff, mul_eq_some_iff, hzero,
        pow_zero, mul_one, Int64.toInt_inj, Option.some.injEq, exists_and_left,
        exists_eq_left', exists_eq_left]

theorem toInt_of_powFrom_eq_some {acc base p : Int64} {exp : Nat}
    (hexp : 0 < exp) (h : powFrom acc base exp = some p) :
    p.toInt = acc.toInt * base.toInt ^ exp := by
  induction exp using Nat.strong_induction_on generalizing acc base with
  | _ exp ih =>
      by_cases hone : exp = 1
      · rw [powFrom, if_pos (Nat.le_of_eq hone), mul_eq_some_iff] at h
        rw [h, hone, pow_one]
      · obtain ⟨acc', base', hacc, hbase, hrest⟩ :=
          (powFrom_step_iff (by omega)).1 h
        have hvalue := ih (exp / 2) (by omega) (by omega) hrest
        rw [hvalue, hacc, hbase, ← pow_eq_mul_pow_div_two]

/-! ## No step fails where there is an answer -/

theorem exists_word {n : Int} (hlo : -9223372036854775808 ≤ n)
    (hhi : n < 9223372036854775808) : ∃ c : Int64, c.toInt = n :=
  ⟨Int64.ofInt n, Int64.toInt_ofInt_of_le hlo hhi⟩

/-- What is multiplied with a positive number comes no nearer to zero. -/
theorem exists_word_of_mul {n k : Int} {p : Int64} (hk : 0 < k)
    (h : p.toInt = n * k) : ∃ c : Int64, c.toInt = n := by
  have hp := toInt_bounds p
  rcases Int.le_total 0 n with hn | hn
  · have hle := le_mul_of_one_le_right hn hk
    exact exists_word (by omega) (by omega)
  · have hge := mul_le_of_one_le_right hn hk
    exact exists_word (by omega) (by omega)

theorem mul_self_ne (n : Nat) : n * n ≠ 9223372036854775808 := by
  rcases Nat.lt_or_ge 3037000499 n with hlt | hle
  · have hsquare := Nat.mul_self_le_mul_self hlt
    omega
  · have hsquare := Nat.mul_self_le_mul_self hle
    omega

/-- A square that divides a word is a word. The only number that divides a word
and is none is no square. -/
theorem exists_word_of_square {b n : Int} {p : Int64} (hp : p.toInt ≠ 0)
    (h : p.toInt = n * (b * b)) : ∃ c : Int64, c.toInt = b * b := by
  have hbounds := toInt_bounds p
  have hle : b.natAbs * b.natAbs ≤ p.toInt.natAbs := by
    rw [h, Int.natAbs_mul, Int.natAbs_mul]
    apply Nat.le_mul_of_pos_left
    rw [Int.natAbs_pos]
    rintro rfl
    exact hp (h.trans (Int.zero_mul _))
  have hne := mul_self_ne b.natAbs
  have hsquare := Int.natAbs_mul_self (a := b)
  exact exists_word (by omega) (by omega)

/-- If the result is a word, so are the numbers of the next step. A zero in front
of squares of something else is kept out, for it hides how great they are. -/
theorem exists_step {acc base p : Int64} {exp : Nat} (hexp : 1 < exp)
    (hne : acc.toInt ≠ 0 ∨ base.toInt = 0)
    (h : p.toInt = acc.toInt * base.toInt ^ exp) :
    ∃ acc' base' : Int64,
      acc'.toInt = acc.toInt * base.toInt ^ (exp % 2) ∧
      base'.toInt = base.toInt * base.toInt ∧
      (acc'.toInt ≠ 0 ∨ base'.toInt = 0) := by
  by_cases hzero : base.toInt = 0
  · rw [hzero]
    rcases Nat.mod_two_eq_zero_or_one exp with hdigit | hdigit
    · exact ⟨acc, 0, by simp [hdigit], rfl, Or.inr rfl⟩
    · exact ⟨0, 0, by simp [hdigit], rfl, Or.inr rfl⟩
  · have hacc : acc.toInt ≠ 0 := hne.resolve_right hzero
    have hsquare : 0 < base.toInt * base.toInt := mul_self_pos.2 hzero
    have hp : p.toInt ≠ 0 := by
      rw [h]
      exact mul_ne_zero hacc (pow_ne_zero _ hzero)
    rw [pow_eq_mul_pow_div_two] at h
    obtain ⟨acc', hacc'⟩ := exists_word_of_mul (Int.pow_pos hsquare) h
    -- the exponent is at least two, so the square is used at least once
    rw [← Nat.succ_pred_eq_of_pos (Nat.div_pos hexp Nat.two_pos), pow_succ,
      ← mul_assoc] at h
    obtain ⟨base', hbase'⟩ := exists_word_of_square hp h
    refine ⟨acc', base', hacc', hbase', Or.inl ?_⟩
    rw [hacc']
    exact mul_ne_zero hacc (pow_ne_zero _ hzero)

theorem powFrom_eq_some {acc base p : Int64} {exp : Nat} (hexp : 0 < exp)
    (hne : acc.toInt ≠ 0 ∨ base.toInt = 0)
    (h : p.toInt = acc.toInt * base.toInt ^ exp) :
    powFrom acc base exp = some p := by
  induction exp using Nat.strong_induction_on generalizing acc base with
  | _ exp ih =>
      by_cases hone : exp = 1
      · rw [powFrom, if_pos (Nat.le_of_eq hone), mul_eq_some_iff, h, hone,
          pow_one]
      · obtain ⟨acc', base', hacc, hbase, hne'⟩ :=
          exists_step (by omega) hne h
        rw [powFrom_step_iff (by omega)]
        refine ⟨acc', base', hacc, hbase, ih (exp / 2) ?_ ?_ hne' ?_⟩
        · omega
        · omega
        · rw [h, pow_eq_mul_pow_div_two, hacc, hbase]

/-- A power is answered exactly if it is a word. -/
theorem pow_eq_some_iff {base p : Int64} {exp : Nat} :
    pow base exp = some p ↔ p.toInt = base.toInt ^ exp := by
  rw [pow]
  split
  · next hzero =>
      rw [hzero, pow_zero, Option.some.injEq, ← Int64.toInt_inj, eq_comm]
      rfl
  · next hpos =>
      have hone : (1 : Int64).toInt = 1 := rfl
      have hexp := Nat.pos_of_ne_zero hpos
      rw [← one_mul (base.toInt ^ exp), ← hone]
      exact ⟨toInt_of_powFrom_eq_some hexp,
        powFrom_eq_some hexp (Or.inl (by decide))⟩

end Checked

namespace Integer

variable {a b : Integer}

@[simp] theorem value_pow (a : Integer) (exp : Nat) :
    (a.pow exp).value = a.value ^ exp := by
  cases a with
  | large n => rfl
  | inline w =>
      rw [pow]
      split
      · next p h => exact Checked.pow_eq_some_iff.1 h
      · rfl

theorem map_value_div (a b : Integer) :
    (a.div b).map value = if b.value = 0 then .error .zeroDivisor
      else .ok (a.value.tdiv b.value) := by
  split
  · next h => rw [div, if_pos h]; rfl
  · next h =>
      obtain ⟨q, hq, hvalue⟩ := div_eq_ok (x := a) h
      rw [hq, ← hvalue]
      rfl

theorem map_value_mod (a b : Integer) :
    (a.mod b).map value = if b.value = 0 then .error .zeroDivisor
      else .ok (a.value.tmod b.value) := by
  split
  · next h => rw [mod, if_pos h]; rfl
  · next h =>
      obtain ⟨r, hr, hvalue⟩ := mod_eq_ok (x := a) h
      rw [hr, ← hvalue]
      rfl

theorem div_eq_error_iff : a.div b = .error .zeroDivisor ↔ b.value = 0 := by
  rw [div]
  split
  · next h => exact iff_of_true rfl h
  · next h => exact iff_of_false (fun heq => by cases heq) h

theorem mod_eq_error_iff : a.mod b = .error .zeroDivisor ↔ b.value = 0 := by
  rw [mod]
  split
  · next h => exact iff_of_true rfl h
  · next h => exact iff_of_false (fun heq => by cases heq) h

/-- The dividend is got back from the quotient and the remainder. The remainder
is smaller than the divisor, and it is on the side of zero of the dividend. -/
theorem div_mod_eq_ok (hb : b.value ≠ 0) :
    ∃ q r, a.div b = .ok q ∧ a.mod b = .ok r ∧
      q.value = a.value.tdiv b.value ∧ r.value = a.value.tmod b.value ∧
      a.value = q.value * b.value + r.value ∧ |r.value| < |b.value| ∧
      0 ≤ r.value * a.value := by
  obtain ⟨q, hq, hqvalue⟩ := div_eq_ok (x := a) hb
  obtain ⟨r, hr, hrvalue⟩ := mod_eq_ok (x := a) hb
  refine ⟨q, r, hq, hr, hqvalue, hrvalue, ?_, ?_, ?_⟩
  · rw [hqvalue, hrvalue, Int.mul_comm, Int.mul_tdiv_add_tmod]
  · rw [hrvalue, Int.abs_eq_natAbs, Int.abs_eq_natAbs, Int.natAbs_tmod]
    exact_mod_cast Nat.mod_lt _ (Int.natAbs_pos.2 hb)
  · rw [hrvalue]
    rcases Int.le_total 0 a.value with hnonneg | hneg
    · exact mul_nonneg (Int.tmod_nonneg _ hnonneg) hnonneg
    · have hopposite := Int.tmod_nonneg b.value (Int.neg_nonneg.2 hneg)
      rw [Int.neg_tmod] at hopposite
      exact mul_nonneg_of_nonpos_of_nonpos (by omega) hneg

end Integer

end KroneckerCode

import KroneckerCode.Proofs.Binary.Round
import Mathlib.Data.Rat.Floor

/-!
# Integers are rounded to the nearest number

What an integer is rounded to is compared here with every other word of the
format. The comparison is one of significands with few digits (`rounded_nearest`).
Those with at least the exponent of the rounded one lie on its grid, where the
nearest point is found by looking at a remainder. Those with a smaller exponent
end below the power of two that the integer starts with, and that power is a
point of the grid itself.

An infinity takes part in this as the first power of two that is too great for
the format. It is a significand with few digits like any other, so what is
rounded to infinity needs no rule of its own (`isNearest_ofInt`).

The way back drops what is behind the point. For a number below zero that is up
(`truncate?_of_number?`).
-/

namespace KroneckerCode

/-- Of the multiples of `d` only zero and `d` itself are next to `r < d`, and all
others are farther away than both. -/
theorem natAbs_sub_mul_bounds {r d : Nat} (hr : r < d) (t : ℤ) :
    (t = 0 ∧ (r - t * d).natAbs = r) ∨ (t = 1 ∧ (r - t * d).natAbs = d - r) ∨
      (r < (r - t * d).natAbs ∧ (0 < r → d - r < (r - t * d).natAbs)) := by
  rcases lt_trichotomy t 0 with hneg | rfl | hpos
  · have hle : t * d ≤ -1 * d := Int.mul_le_mul_of_nonneg_right (by omega) (by omega)
    right; right; omega
  · left; omega
  · rcases Int.lt_or_eq_of_le hpos with hlt | rfl
    · have hle : 2 * d ≤ t * d := Int.mul_le_mul_of_nonneg_right (by omega) (by omega)
      right; right; omega
    · right; left; omega

/-- No multiple of `twoPow k` is nearer than the one that `roundHalfEven` answers,
and if another is equally near, the answer is even. -/
theorem roundHalfEven_nearest (n k c : Nat) :
    |(n - (roundHalfEven n k * twoPow k : Nat) : ℚ)| ≤
        |(n - (c * twoPow k : Nat) : ℚ)| ∧
      (|(n - (roundHalfEven n k * twoPow k : Nat) : ℚ)| =
          |(n - (c * twoPow k : Nat) : ℚ)| →
        c = roundHalfEven n k ∨ roundHalfEven n k % 2 = 0) := by
  have hsplit := Nat.mod_add_div' n (twoPow k)
  have hr := Nat.mod_lt n (twoPow_pos k)
  simp only [roundHalfEven]
  generalize twoPow k = d at *
  generalize n / d = q at *
  generalize n % d = r at *
  -- the distance from a multiple is that of `r` from a multiple `t * d`
  have hdist : ∀ c : Nat, |(n - (c * d : Nat) : ℚ)| =
      (((r : ℤ) - (c - q) * d).natAbs : ℚ) := by
    intro c
    rw [Nat.cast_natAbs, Int.cast_abs, ← hsplit]
    push_cast
    ring_nf
  have hc := natAbs_sub_mul_bounds hr (c - q)
  rw [hdist, hdist, Nat.cast_le, Nat.cast_inj]
  split_ifs with hup
  · have hanswer := natAbs_sub_mul_bounds hr (((q + 1 : Nat) : ℤ) - q)
    omega
  · have hanswer := natAbs_sub_mul_bounds hr ((q : ℤ) - q)
    omega

namespace BinaryFormat

variable {f : BinaryFormat} {a m : Nat} {e : Int}

theorem topExponent_eq (f : BinaryFormat) :
    f.topExponent = 2 * f.bias + 1 := by
  cases f <;> rfl

theorem two_dvd_unit (f : BinaryFormat) : 2 ∣ f.unit := by
  cases f <;> decide

/-- The number that `a` is rounded to, if its exponent is not too great. -/
def roundedValue (f : BinaryFormat) (a : Nat) : ℚ :=
  f.rounded a * 2 ^ (bitLength a - f.precision : Int)

theorem roundedValue_of_le (h : bitLength a ≤ f.precision) :
    f.roundedValue a = a := by
  apply rounded_mul_zpow
  rw [Nat.sub_eq_zero_of_le h]
  exact Nat.one_dvd a

theorem roundedValue_of_lt (h : f.precision < bitLength a) :
    f.roundedValue a =
      (f.rounded a * twoPow (bitLength a - f.precision) : Nat) := by
  have hexponent : (bitLength a - f.precision : Int) =
      (bitLength a - f.precision : Nat) := by omega
  rw [roundedValue, hexponent, zpow_natCast, Nat.cast_mul, cast_twoPow]

/-- With an exponent that is not smaller than `k`, a significand is on the grid of
`twoPow k`. -/
theorem exists_eq_mul_twoPow {k : Nat} (h : k ≤ e) :
    ∃ c : Nat, (m * 2 ^ e : ℚ) = (c * twoPow k : Nat) := by
  obtain ⟨j, rfl⟩ : ∃ j : Nat, e = j + k := ⟨(e - k).toNat, by omega⟩
  refine ⟨m * twoPow j, ?_⟩
  rw [zpow_add₀ two_ne_zero, zpow_natCast, zpow_natCast, ← cast_twoPow,
    ← cast_twoPow]
  push_cast
  ring

/-- With a smaller exponent, a significand with few digits ends below the least
number that has as many digits as `a`. -/
theorem mul_zpow_lt {k : Nat} (hm : m < 2 * f.unit) (h : e < k) :
    (m * 2 ^ e : ℚ) < (f.unit * twoPow k : Nat) := by
  have hpow : (0 : ℚ) < 2 ^ e := by positivity
  calc (m * 2 ^ e : ℚ) < (2 * f.unit : Nat) * 2 ^ e :=
        mul_lt_mul_of_pos_right (Nat.cast_lt.2 hm) hpow
    _ = f.unit * 2 ^ (e + 1) := by
        rw [zpow_add_one₀ two_ne_zero]
        push_cast
        ring
    _ ≤ f.unit * 2 ^ (k : Int) := by
        gcongr
        · norm_num
        · omega
    _ = (f.unit * twoPow k : Nat) := by
        rw [zpow_natCast, Nat.cast_mul, cast_twoPow]

theorem unit_mul_le (h : f.precision < bitLength a) :
    f.unit * twoPow (bitLength a - f.precision) ≤ a := by
  have hne : a ≠ 0 := by
    rintro rfl
    exact absurd h (Nat.not_lt_zero _)
  have hdigits : f.fractionBits + (bitLength a - f.precision) =
      bitLength a - 1 := by
    rw [precision] at h ⊢
    omega
  rw [unit, ← twoPow_add, hdigits]
  exact le_of_bitLength hne

/-- No number that the digits of the format can express is nearer than the one
rounded to, and if another is equally near, the rounded significand is even. -/
theorem rounded_nearest (hm : m < 2 * f.unit) :
    |(a - f.roundedValue a : ℚ)| ≤ |(a - m * 2 ^ e : ℚ)| ∧
      (|(a - f.roundedValue a : ℚ)| = |(a - m * 2 ^ e : ℚ)| →
        (m * 2 ^ e : ℚ) = f.roundedValue a ∨ f.rounded a % 2 = 0) := by
  rcases Nat.lt_or_ge f.precision (bitLength a) with hlt | hle
  · have hgrid := fun c => roundHalfEven_nearest a (bitLength a - f.precision) c
    have hrounded : f.rounded a =
        roundHalfEven a (bitLength a - f.precision) := if_neg (Nat.not_le.2 hlt)
    rw [← hrounded, ← roundedValue_of_lt hlt] at hgrid
    rcases Int.lt_or_le e (bitLength a - f.precision : Nat) with hsmall | hlarge
    · -- the start of the digits of `a` is on the grid, and nearer than `m * 2 ^ e`
      have hbelow := mul_zpow_lt hm hsmall
      have hstart : ((f.unit * twoPow (bitLength a - f.precision) : Nat) : ℚ) ≤ a :=
        Nat.cast_le.2 (unit_mul_le hlt)
      have hnear := (hgrid f.unit).1
      rw [abs_of_nonneg (sub_nonneg.2 hstart)] at hnear
      have hfar : |(a - f.roundedValue a : ℚ)| < |(a - m * 2 ^ e : ℚ)| := by
        rw [abs_of_pos (sub_pos.2 (hbelow.trans_le hstart))]
        linarith
      exact ⟨hfar.le, fun heq => absurd heq hfar.ne⟩
    · obtain ⟨c, hc⟩ := exists_eq_mul_twoPow (m := m) hlarge
      rw [hc]
      refine ⟨(hgrid c).1, fun heq => ((hgrid c).2 heq).imp_left ?_⟩
      rintro rfl
      rw [roundedValue_of_lt hlt]
  · rw [roundedValue_of_le hle, sub_self, abs_zero]
    refine ⟨abs_nonneg _, fun heq => Or.inl ?_⟩
    exact (sub_eq_zero.1 (abs_eq_zero.1 heq.symm)).symm

end BinaryFormat

namespace Binary

variable {f : BinaryFormat} {x : Binary f} {n : Int} {q r : ℚ}

/-! ## Words as candidates -/

/-- Where a word stands when the nearest one is looked for: at its number, or for
an infinity at the first power of two that is too great for the format. -/
def position? (x : Binary f) : Option ℚ :=
  match x.datum with
  | .finite negative m e => some ((if negative then -1 else 1) * (m * 2 ^ e))
  | .infinite negative => some ((if negative then -1 else 1) * 2 ^ (f.bias + 1))
  | .notANumber => none

/-- No word stands nearer to `n`, and if another one stands as near, the last
digit of the fraction is zero. -/
def IsNearest (x : Binary f) (n : Int) : Prop :=
  ∃ r, x.position? = some r ∧ ∀ (y : Binary f) (q : ℚ), y.position? = some q →
    |(n - r : ℚ)| ≤ |(n - q : ℚ)| ∧
      (|(n - r : ℚ)| = |(n - q : ℚ)| → q = r ∨ x.fractionField % 2 = 0)

theorem position?_of_number? (h : x.datum.number? = some q) :
    x.position? = some q := by
  obtain ⟨negative, m, e, hdatum, heq⟩ := exists_datum_of_number? h
  rw [position?, hdatum, ← heq]

theorem abs_sign_mul {negative : Bool} {a : ℚ} (ha : 0 ≤ a) :
    |(if negative then -1 else 1) * a| = a := by
  cases negative
  · rw [if_neg Bool.false_ne_true, one_mul, abs_of_nonneg ha]
  · rw [if_pos rfl, neg_one_mul, abs_neg, abs_of_nonneg ha]

/-- The first power of two that is too great is a significand with few digits. -/
theorem two_pow_bias_succ (f : BinaryFormat) :
    (2 ^ (f.bias + 1) : ℚ) = f.unit * 2 ^ (f.bias + 1 - f.fractionBits : Int) := by
  rw [BinaryFormat.unit, cast_twoPow, ← zpow_natCast, ← zpow_natCast,
    ← zpow_add₀ two_ne_zero]
  congr 1
  push_cast
  ring

/-- Every candidate is a significand with few digits, and none is beyond the
infinities. -/
theorem exists_of_position? (h : x.position? = some q) :
    ∃ (m : Nat) (e : Int), m < 2 * f.unit ∧ |q| = m * 2 ^ e ∧
      |q| ≤ 2 ^ (f.bias + 1) := by
  have hunit := f.unit_pos
  rw [position?] at h
  cases hdatum : x.datum with
  | notANumber => rw [hdatum] at h; cases h
  | infinite negative =>
      rw [hdatum, Option.some.injEq] at h
      rw [← h, abs_sign_mul (by positivity)]
      exact ⟨f.unit, _, by omega, two_pow_bias_succ f, le_rfl⟩
  | finite negative m e =>
      rw [hdatum, Option.some.injEq] at h
      have hcanonical := (hasFields_of_datum hdatum).canonical
      have htop := f.topExponent_eq
      have hexponent : e ≤ f.bias - f.fractionBits := by
        have hlt := hcanonical.lt_top
        rw [BinaryFormat.minExponent] at hlt
        omega
      rw [← h, abs_sign_mul (by positivity)]
      refine ⟨m, e, hcanonical.lt, rfl, ?_⟩
      calc (m * 2 ^ e : ℚ)
          ≤ (2 * f.unit : Nat) * 2 ^ (f.bias - f.fractionBits : Int) := by
            gcongr
            · exact hcanonical.lt.le
            · norm_num
        _ = 2 ^ (f.bias + 1) := by
            have hsplit : (f.bias + 1 - f.fractionBits : Int) =
                f.bias - f.fractionBits + 1 := by ring
            rw [two_pow_bias_succ, hsplit, zpow_add_one₀ two_ne_zero]
            push_cast
            ring

/-! ## The sign

A candidate on the other side of zero is farther away than its absolute value. -/

theorem nearest_of_abs {a b : ℚ} (ha : 0 < a)
    (hle : |a - b| ≤ |a - (|q|)|) :
    |a - b| ≤ |a - q| ∧
      (|a - b| = |a - q| → |a - b| = |a - (|q|)| ∧ |q| = q) := by
  rcases le_or_gt 0 q with hq | hq
  · rw [abs_of_nonneg hq] at hle ⊢
    exact ⟨hle, fun heq => ⟨heq, rfl⟩⟩
  · have hfar : |a - (|q|)| < |a - q| := by
      rw [abs_of_neg hq, abs_of_pos (a := a - q) (by linarith), abs_lt]
      constructor <;> linarith
    exact ⟨hle.trans hfar.le, fun heq => absurd (hle.trans_lt hfar) heq.not_lt⟩

theorem isNearest_of_abs {b : ℚ} (hn : n ≠ 0)
    (hx : x.position? = some ((if n < 0 then -1 else 1) * b))
    (h : ∀ (y : Binary f) (q : ℚ), y.position? = some q →
      |(n.natAbs - b : ℚ)| ≤ |(n.natAbs - (|q|) : ℚ)| ∧
        (|(n.natAbs - b : ℚ)| = |(n.natAbs - (|q|) : ℚ)| →
          |q| = b ∨ x.fractionField % 2 = 0)) : x.IsNearest n := by
  have hpos : (0 : ℚ) < n.natAbs := Nat.cast_pos.2 (Int.natAbs_pos.2 hn)
  refine ⟨_, hx, fun y q hy => ?_⟩
  obtain ⟨hle, htie⟩ := h y q hy
  split_ifs with hneg
  · have hcast : (n : ℚ) = -n.natAbs := by
      rw [Nat.cast_natAbs, Int.cast_abs, abs_of_neg (Int.cast_lt_zero.2 hneg),
        neg_neg]
    have hdist : ∀ r : ℚ, |(n - r : ℚ)| = |(n.natAbs - -r : ℚ)| := by
      intro r
      rw [hcast, ← abs_neg]
      congr 1
      ring
    rw [← abs_neg q] at hle htie
    obtain ⟨hnear, hsame⟩ := nearest_of_abs hpos hle
    rw [hdist, hdist, neg_one_mul, neg_neg]
    refine ⟨hnear, fun heq => ?_⟩
    obtain ⟨heq, habs⟩ := hsame heq
    exact (htie heq).imp_left fun hb => by rw [← hb, habs, neg_neg]
  · have hcast : (n : ℚ) = n.natAbs := by
      rw [Nat.cast_natAbs, Int.cast_abs,
        abs_of_nonneg (Int.cast_nonneg (Int.not_lt.1 hneg))]
    obtain ⟨hnear, hsame⟩ := nearest_of_abs hpos hle
    rw [hcast, one_mul]
    refine ⟨hnear, fun heq => ?_⟩
    obtain ⟨heq, habs⟩ := hsame heq
    exact (htie heq).imp_left fun hb => by rw [← hb, habs]

/-! ## The word of an integer -/

section

variable {negative : Bool}

/-- The last digit of the fraction is that of the significand, also where the
significand is carried. -/
theorem fractionField_ofMagnitude_mod_two {field significand : Nat}
    (hlo : f.unit ≤ significand)
    (hlt : field * f.unit + (significand - f.unit) < twoPow (f.width - 1)) :
    (ofMagnitude f negative
      (field * f.unit + (significand - f.unit))).fractionField % 2 =
        significand % 2 := by
  have heven := f.two_dvd_unit
  rw [fractionField_eq, magnitude_ofMagnitude hlt, Nat.mul_comm,
    Nat.mul_add_mod, Nat.mod_mod_of_dvd _ heven]
  omega

theorem fractionField_ofMagnitude_top :
    (ofMagnitude f negative (f.topExponent * f.unit)).fractionField = 0 := by
  rw [fractionField_eq, magnitude_ofMagnitude f.topExponent_mul_unit_lt,
    Nat.mul_mod_left]

end

/-- What is rounded to infinity is rounded to a number that is too great. -/
theorem two_pow_le_roundedValue {a : Nat} (ha : a ≠ 0)
    (h : f.topExponent * f.unit ≤ fieldsOf f a) :
    (2 ^ (f.bias + 1) : ℚ) ≤ f.roundedValue a := by
  obtain ⟨hlo, hhi⟩ := BinaryFormat.rounded_bounds (f := f) ha
  have hbias : 1 ≤ f.bias := by cases f <;> decide
  have hunit := f.unit_pos
  rw [fieldsOf, f.topExponent_eq] at h
  have hdigits : f.bias + 1 ≤ bitLength a := by
    by_contra hlt
    have hfield : (f.bias + bitLength a - 1) * f.unit + f.unit ≤
        2 * f.bias * f.unit := by
      rw [← Nat.succ_mul]
      exact Nat.mul_le_mul_right _ (by omega)
    rw [Nat.succ_mul] at h
    omega
  rw [two_pow_bias_succ, BinaryFormat.roundedValue]
  rcases Nat.lt_or_eq_of_le hdigits with hlt | heq
  · refine mul_le_mul (Nat.cast_le.2 hlo) ?_ (by positivity) (by positivity)
    apply zpow_le_zpow_right₀ one_le_two
    rw [BinaryFormat.precision]
    omega
  · have hdouble : 2 * f.unit ≤ f.rounded a := by
      rw [← heq, Nat.succ_mul] at h
      have hfield : f.bias + (f.bias + 1) - 1 = 2 * f.bias := by omega
      rw [hfield] at h
      omega
    calc (f.unit * 2 ^ (f.bias + 1 - f.fractionBits : Int) : ℚ)
        = (2 * f.unit : Nat) * 2 ^ (bitLength a - f.precision : Int) := by
          rw [← heq, BinaryFormat.precision]
          have hsplit : (f.bias + 1 - f.fractionBits : Int) =
              (f.bias + 1 : Nat) - (f.fractionBits + 1 : Nat) + 1 := by
            push_cast
            ring
          rw [hsplit, zpow_add_one₀ two_ne_zero]
          push_cast
          ring
      _ ≤ f.rounded a * 2 ^ (bitLength a - f.precision : Int) := by
          gcongr

theorem isNearest_ofInt_zero (f : BinaryFormat) : (ofInt f 0).IsNearest 0 := by
  have hzero : (ofInt f 0).datum.number? = some 0 := by
    rw [ofInt_eq]
    exact number?_ofMagnitude_zero f false
  refine ⟨0, position?_of_number? hzero, fun y q _ => ?_⟩
  rw [Int.cast_zero, sub_zero, abs_zero]
  refine ⟨abs_nonneg _, fun heq => Or.inl ?_⟩
  linarith [abs_eq_zero.1 heq.symm]

/-- What is rounded to a number has its nearest neighbour among the numbers that
the digits of the format can express, and there it is `roundedValue`. -/
theorem isNearest_ofInt_of_finite (hn : n ≠ 0)
    (hfinite : fieldsOf f n.natAbs < f.topExponent * f.unit) :
    (ofInt f n).IsNearest n := by
  have hnat : n.natAbs ≠ 0 := Int.natAbs_ne_zero.2 hn
  obtain ⟨hlo, _⟩ := BinaryFormat.rounded_bounds (f := f) hnat
  have hlt := hfinite.trans f.topExponent_mul_unit_lt
  have hnumber : (ofInt f n).datum.number? =
      some ((if n < 0 then -1 else 1) * f.roundedValue n.natAbs) := by
    rw [number?_ofInt hn, if_pos hfinite]
    rfl
  refine isNearest_of_abs hn (position?_of_number? hnumber) fun y q hy => ?_
  obtain ⟨m, e, hm, habs, _⟩ := exists_of_position? hy
  obtain ⟨hle, htie⟩ :=
    BinaryFormat.rounded_nearest (a := n.natAbs) (e := e) hm
  rw [habs]
  refine ⟨hle, fun heq => (htie heq).imp_right fun heven => ?_⟩
  rw [fieldsOf] at hlt
  rw [ofInt_eq, roundMagnitude_eq hnat, Nat.min_eq_left hfinite.le, fieldsOf,
    fractionField_ofMagnitude_mod_two hlo hlt, heven]

/-- What is rounded to infinity is nearest to the power of two that infinity
stands at, or between that power and a greater number that would be nearest if
the format had it. -/
theorem isNearest_ofInt_of_infinite (hn : n ≠ 0)
    (hinfinite : f.topExponent * f.unit ≤ fieldsOf f n.natAbs) :
    (ofInt f n).IsNearest n := by
  have hnat : n.natAbs ≠ 0 := Int.natAbs_ne_zero.2 hn
  have hgreat := two_pow_le_roundedValue hnat hinfinite
  have hword : ofInt f n =
      ofMagnitude f (decide (n < 0)) (f.topExponent * f.unit) := by
    rw [ofInt_eq, roundMagnitude_eq hnat, Nat.min_eq_right hinfinite]
  have hposition : (ofInt f n).position? =
      some ((if n < 0 then -1 else 1) * 2 ^ (f.bias + 1)) := by
    rw [hword, position?, datum_ofMagnitude_top]
    simp only [decide_eq_true_eq]
  refine isNearest_of_abs hn hposition fun y q hy => ⟨?_, fun _ => Or.inr ?_⟩
  · obtain ⟨m, e, hm, habs, hbound⟩ := exists_of_position? hy
    have hnear :=
      (BinaryFormat.rounded_nearest (a := n.natAbs) (e := e) hm).1
    rw [← habs] at hnear
    rcases le_total (2 ^ (f.bias + 1) : ℚ) n.natAbs with hbelow | habove
    · -- no candidate is above the power of two, so none is nearer from below
      rw [abs_of_nonneg (sub_nonneg.2 hbelow),
        abs_of_nonneg (sub_nonneg.2 (hbound.trans hbelow))]
      linarith
    · -- the power of two lies on the way to `roundedValue`
      refine le_trans ?_ hnear
      rw [abs_of_nonpos (sub_nonpos.2 habove),
        abs_of_nonpos (sub_nonpos.2 (habove.trans hgreat))]
      linarith
  · rw [hword, fractionField_ofMagnitude_top]

/-- An integer is rounded to the nearest number, to the one with the even
significand if two are equally near, and to infinity if that is nearer than any
number would be. -/
theorem isNearest_ofInt (f : BinaryFormat) (n : Int) :
    (ofInt f n).IsNearest n := by
  rcases eq_or_ne n 0 with rfl | hn
  · exact isNearest_ofInt_zero f
  · rcases Nat.lt_or_ge (fieldsOf f n.natAbs) (f.topExponent * f.unit) with
      hfinite | hinfinite
    · exact isNearest_ofInt_of_finite hn hfinite
    · exact isNearest_ofInt_of_infinite hn hinfinite

end Binary

/-! ## Dropping what is behind the point -/

namespace Datum

theorem wholePart_eq_floor (m : Nat) (e : Int) :
    (wholePart m e : Int) = ⌊(m * 2 ^ e : ℚ)⌋ := by
  obtain ⟨k, rfl | rfl⟩ := e.eq_nat_or_neg
  · rw [wholePart, if_pos (Int.natCast_nonneg k), Int.toNat_natCast,
      zpow_natCast, ← cast_twoPow, ← Nat.cast_mul, Int.floor_natCast]
  · rw [wholePart_neg, zpow_neg, zpow_natCast, ← cast_twoPow,
      ← div_eq_mul_inv, Rat.floor_natCast_div_natCast, Int.natCast_ediv]

/-- A number is cut off towards zero. -/
theorem truncate?_of_number? {d : Datum} {q : ℚ} (h : d.number? = some q) :
    d.truncate? = some (if 0 ≤ q then ⌊q⌋ else ⌈q⌉) := by
  cases d with
  | notANumber => cases h
  | infinite negative => cases h
  | finite negative m e =>
      rw [number?, Option.some.injEq] at h
      rw [truncate?_finite, wholePart_eq_floor, ← h]
      have hpos : (0 : ℚ) ≤ m * 2 ^ e := by positivity
      generalize (m * 2 ^ e : ℚ) = a at hpos ⊢
      cases negative with
      | false =>
          simp only [Bool.false_eq_true, if_false, one_mul, if_pos hpos]
      | true =>
          simp only [if_true, neg_one_mul, Int.ceil_neg]
          split_ifs with hzero
          · obtain rfl : a = 0 := by linarith
            simp
          · rfl

end Datum

end KroneckerCode

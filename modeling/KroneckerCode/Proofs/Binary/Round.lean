import KroneckerCode.Binary.Round
import KroneckerCode.Proofs.Binary.Number

/-!
# What an integer is rounded to

An integer is rounded to a significand that has all the digits of its format,
`rounded`, and an exponent that counts the digits left over. The word is put
together by addition, and the addition carries, so the significand may be one
too many: `number?_ofMagnitude` is the one place where that case is looked at,
and from there on the word simply says `significand * 2 ^ exponent`, or it has
become infinite (`number?_ofInt`).

Two things follow. An integer that the format has a word for is rounded to that
number, because all the digits that are rounded away are zeros and its exponent
is not too great (`number?_ofInt_of_representable`). And whatever an integer is
rounded to has nothing behind the point, so a test that drops what is behind the
point cannot be deceived (`number?_ofInt_of_truncate?`).
-/

namespace KroneckerCode

theorem le_of_bitLength {n : Nat} (hn : n ≠ 0) : twoPow (bitLength n - 1) ≤ n := by
  by_contra hlt
  have hle := bitLength_le_iff.2 (Nat.not_le.1 hlt)
  have hpos : bitLength n ≠ 0 := by
    rw [bitLength, if_neg hn]
    exact Nat.succ_ne_zero _
  omega

theorem lt_of_bitLength (n : Nat) : n < twoPow (bitLength n) :=
  bitLength_le_iff.1 (Nat.le_refl _)

theorem roundHalfEven_bounds (n k : Nat) :
    n / twoPow k ≤ roundHalfEven n k ∧ roundHalfEven n k ≤ n / twoPow k + 1 := by
  simp only [roundHalfEven]
  split_ifs <;> omega

/-- Nothing is rounded where only zeros are dropped. -/
theorem roundHalfEven_mul (n k : Nat) : roundHalfEven (n * twoPow k) k = n := by
  have hpos := twoPow_pos k
  simp only [roundHalfEven, Nat.mul_mod_left, Nat.mul_div_cancel _ hpos]
  rw [if_neg (by omega)]

namespace BinaryFormat

variable (f : BinaryFormat)

theorem two_mul_unit : 2 * f.unit = twoPow f.precision :=
  (twoPow_succ f.fractionBits).symm

/-- Every significand has an exponent field that is not the greatest. -/
theorem bias_add_precision_le : f.bias + f.precision ≤ f.topExponent := by
  cases f <;> decide

/-- The significand of a number, with all the digits of the format. -/
def rounded (n : Nat) : Nat :=
  if bitLength n ≤ f.precision then n * twoPow (f.precision - bitLength n)
  else roundHalfEven n (bitLength n - f.precision)

variable {f} {n : Nat}

theorem rounded_bounds (hn : n ≠ 0) :
    f.unit ≤ f.rounded n ∧ f.rounded n ≤ 2 * f.unit := by
  have hlo := le_of_bitLength hn
  have hhi := lt_of_bitLength n
  have hone : 1 ≤ bitLength n := by
    rw [bitLength, if_neg hn]
    exact Nat.le_add_left 1 _
  rw [two_mul_unit, rounded]
  split_ifs with hdigits
  · have hsplit : twoPow f.precision =
        twoPow (bitLength n) * twoPow (f.precision - bitLength n) := by
      rw [← twoPow_add, Nat.add_sub_cancel' hdigits]
    have hunit : f.unit =
        twoPow (bitLength n - 1) * twoPow (f.precision - bitLength n) := by
      rw [← twoPow_add, unit]
      congr 1
      rw [precision] at hdigits ⊢
      omega
    rw [hsplit, hunit]
    exact ⟨Nat.mul_le_mul_right _ hlo, Nat.mul_le_mul_right _ hhi.le⟩
  · obtain ⟨hfloor, hceil⟩ :=
      roundHalfEven_bounds n (bitLength n - f.precision)
    have hpos := twoPow_pos (bitLength n - f.precision)
    have hsplit : twoPow (bitLength n) =
        twoPow f.precision * twoPow (bitLength n - f.precision) := by
      rw [← twoPow_add]
      congr 1
      omega
    have hunit : twoPow (bitLength n - 1) =
        f.unit * twoPow (bitLength n - f.precision) := by
      rw [unit, ← twoPow_add]
      congr 1
      rw [precision] at hdigits ⊢
      omega
    rw [hunit] at hlo
    rw [hsplit] at hhi
    have hlt := (Nat.div_lt_iff_lt_mul hpos).2 hhi
    have hge := (Nat.le_div_iff_mul_le hpos).2 hlo
    omega

/-- A number whose last digits are zeros is its rounded significand. -/
theorem rounded_mul_zpow (hzeros : twoPow (bitLength n - f.precision) ∣ n) :
    (f.rounded n * 2 ^ (bitLength n - f.precision : Int) : ℚ) = n := by
  rw [rounded]
  split_ifs with hdigits
  · have hexponent : (bitLength n - f.precision : Int) =
        -((f.precision - bitLength n : Nat) : Int) := by omega
    rw [hexponent, Datum.mul_two_zpow_neg_eq_iff]
  · obtain ⟨c, hc⟩ := hzeros
    have hexponent : (bitLength n - f.precision : Int) =
        (bitLength n - f.precision : Nat) := by omega
    rw [hexponent, zpow_natCast, ← cast_twoPow, ← Nat.cast_mul, Nat.cast_inj]
    generalize bitLength n - f.precision = k at hc ⊢
    rw [hc, Nat.mul_comm (twoPow k), roundHalfEven_mul]

theorem rounded_lt (hzeros : twoPow (bitLength n - f.precision) ∣ n) :
    f.rounded n < 2 * f.unit := by
  have hpow : (0 : ℚ) < 2 ^ (bitLength n - f.precision : Int) := by positivity
  have hlt : (n : ℚ) <
      twoPow f.precision * 2 ^ (bitLength n - f.precision : Int) := by
    rw [cast_twoPow, ← zpow_natCast, ← zpow_add₀ two_ne_zero, add_sub_cancel,
      zpow_natCast, ← cast_twoPow]
    exact Nat.cast_lt.2 (lt_of_bitLength n)
  rw [← rounded_mul_zpow hzeros] at hlt
  rw [two_mul_unit]
  exact Nat.cast_lt.1 (lt_of_mul_lt_mul_right hlt hpow.le)

end BinaryFormat

namespace Binary

variable {f : BinaryFormat} {negative : Bool} {n : Nat}

/-! ## The word of a significand and an exponent -/

theorem datum_ofMagnitude {field fraction : Nat} (hfield : 1 ≤ field)
    (htop : field < f.topExponent) (hfraction : fraction < f.unit) :
    (ofMagnitude f negative (field * f.unit + fraction)).datum =
      .finite negative (f.unit + fraction) (field - 1 + f.minExponent) := by
  have hlt : field * f.unit + fraction < twoPow (f.width - 1) := by
    rw [f.twoPow_width_sub_one]
    calc field * f.unit + fraction < (field + 1) * f.unit := by
          rw [Nat.succ_mul]
          omega
      _ ≤ (f.topExponent + 1) * f.unit := Nat.mul_le_mul_right _ (by omega)
  have hexponent : (ofMagnitude f negative
      (field * f.unit + fraction)).exponentField = field := by
    rw [exponentField_eq, magnitude_ofMagnitude hlt, Nat.mul_comm,
      Nat.mul_add_div f.unit_pos, Nat.div_eq_of_lt hfraction, Nat.add_zero]
  have hmantissa : (ofMagnitude f negative
      (field * f.unit + fraction)).fractionField = fraction := by
    rw [fractionField_eq, magnitude_ofMagnitude hlt, Nat.mul_comm,
      Nat.mul_add_mod, Nat.mod_eq_of_lt hfraction]
  rw [datum, hexponent, hmantissa, isNegative_ofMagnitude hlt,
    if_neg (by omega), if_neg (by omega)]
  rfl

/-- A significand that is one too many is carried into the exponent. -/
theorem number?_ofMagnitude {field significand : Nat} (hfield : 1 ≤ field)
    (hlo : f.unit ≤ significand) (hhi : significand ≤ 2 * f.unit)
    (hfinite : field * f.unit + (significand - f.unit) <
      f.topExponent * f.unit) :
    (ofMagnitude f negative
        (field * f.unit + (significand - f.unit))).datum.number? =
      some ((if negative then -1 else 1) *
        (significand * 2 ^ (field - 1 + f.minExponent : Int) : ℚ)) := by
  have hpos := f.unit_pos
  by_cases hcarry : significand = 2 * f.unit
  · have hnext : field * f.unit + (significand - f.unit) =
        (field + 1) * f.unit + 0 := by
      rw [Nat.succ_mul]
      omega
    have htop : field + 1 < f.topExponent := by
      rw [hnext] at hfinite
      exact Nat.lt_of_mul_lt_mul_right hfinite
    rw [hnext, datum_ofMagnitude (by omega) htop hpos, Datum.number?, hcarry]
    have hexponent : ((field + 1 : Nat) - 1 + f.minExponent : Int) =
        field - 1 + f.minExponent + 1 := by omega
    rw [hexponent, zpow_add_one₀ two_ne_zero]
    push_cast
    ring_nf
  · have htop : field < f.topExponent := by
      refine Nat.lt_of_mul_lt_mul_right (a := f.unit) ?_
      omega
    rw [datum_ofMagnitude hfield htop (by omega), Datum.number?,
      Nat.add_sub_cancel' hlo]

theorem datum_ofMagnitude_top :
    (ofMagnitude f negative (f.topExponent * f.unit)).datum =
      .infinite negative := by
  have hlt := f.topExponent_mul_unit_lt
  rw [datum, exponentField_eq, fractionField_eq, magnitude_ofMagnitude hlt,
    isNegative_ofMagnitude hlt, Nat.mul_div_cancel _ f.unit_pos,
    Nat.mul_mod_left, if_pos rfl, if_pos rfl]

/-! ## The word of an integer -/

/-- The exponent field and fraction of a rounded number, if there is room. -/
def fieldsOf (f : BinaryFormat) (n : Nat) : Nat :=
  (f.bias + bitLength n - 1) * f.unit + (f.rounded n - f.unit)

theorem roundMagnitude_eq (hn : n ≠ 0) :
    roundMagnitude f n = min (fieldsOf f n) (f.topExponent * f.unit) := by
  rw [roundMagnitude, if_neg hn]
  rfl

theorem ofInt_eq (f : BinaryFormat) (n : Int) :
    ofInt f n = ofMagnitude f (decide (n < 0)) (roundMagnitude f n.natAbs) := by
  simp only [ofInt, ofMagnitude, decide_eq_true_eq]

/-- An integer is rounded to a number unless it reaches the greatest exponent. -/
theorem number?_ofInt {n : Int} (hn : n ≠ 0) :
    (ofInt f n).datum.number? =
      if fieldsOf f n.natAbs < f.topExponent * f.unit then
        some ((if n < 0 then -1 else 1) * (f.rounded n.natAbs *
          2 ^ (bitLength n.natAbs - f.precision : Int) : ℚ))
      else none := by
  have hnat : n.natAbs ≠ 0 := Int.natAbs_ne_zero.2 hn
  have hdigits : 1 ≤ bitLength n.natAbs := by
    rw [bitLength, if_neg hnat]
    exact Nat.le_add_left 1 _
  have hbias : 1 ≤ f.bias := by cases f <;> decide
  obtain ⟨hlo, hhi⟩ := BinaryFormat.rounded_bounds (f := f) hnat
  rw [ofInt_eq, roundMagnitude_eq hnat]
  by_cases hfinite : fieldsOf f n.natAbs < f.topExponent * f.unit
  · rw [if_pos hfinite, Nat.min_eq_left hfinite.le]
    rw [fieldsOf] at hfinite ⊢
    rw [number?_ofMagnitude (by omega) hlo hhi hfinite]
    have hexponent : ((f.bias + bitLength n.natAbs - 1 : Nat) : Int) - 1 +
        f.minExponent = bitLength n.natAbs - f.precision := by
      rw [BinaryFormat.minExponent, BinaryFormat.precision]
      omega
    simp only [hexponent, decide_eq_true_eq]
  · rw [if_neg hfinite, Nat.min_eq_right (Nat.not_lt.1 hfinite),
      datum_ofMagnitude_top]
    rfl

/-! ## Integers that are not changed -/

/-- An integer whose digits all have a place is not changed. -/
theorem number?_ofInt_of_dvd {n : Int}
    (hzeros : twoPow (bitLength n.natAbs - f.precision) ∣ n.natAbs)
    (hfield : f.bias + bitLength n.natAbs - 1 < f.topExponent) :
    (ofInt f n).datum.number? = some (n : ℚ) := by
  rcases eq_or_ne n 0 with rfl | hn
  · rw [ofInt_eq]
    exact number?_ofMagnitude_zero f false
  · have hlt := BinaryFormat.rounded_lt hzeros
    have hfinite : fieldsOf f n.natAbs < f.topExponent * f.unit := by
      calc fieldsOf f n.natAbs
          < (f.bias + bitLength n.natAbs - 1 + 1) * f.unit := by
            rw [fieldsOf, Nat.succ_mul]
            have := f.unit_pos
            omega
        _ ≤ f.topExponent * f.unit := Nat.mul_le_mul_right _ hfield
    rw [number?_ofInt hn, if_pos hfinite,
      BinaryFormat.rounded_mul_zpow hzeros, Nat.cast_natAbs, Int.cast_abs]
    split_ifs with hneg
    · rw [abs_of_neg (Int.cast_lt_zero.2 hneg), neg_one_mul, neg_neg]
    · rw [abs_of_nonneg (Int.cast_nonneg (Int.not_lt.1 hneg)), one_mul]

theorem number?_ofInt_of_bitLength_le {n : Int}
    (h : bitLength n.natAbs ≤ f.precision) :
    (ofInt f n).datum.number? = some (n : ℚ) := by
  have hbias := f.bias_add_precision_le
  have hprecision : 0 < f.precision := Nat.succ_pos _
  refine number?_ofInt_of_dvd ?_ (by omega)
  rw [Nat.sub_eq_zero_of_le h]
  exact Nat.one_dvd _

/-- An integer that has a word is rounded to it. -/
theorem number?_ofInt_of_representable {x : Binary f} {n : Int}
    (h : x.datum.number? = some (n : ℚ)) :
    (ofInt f n).datum.number? = some (n : ℚ) := by
  obtain ⟨negative, m, e, hdatum, heq⟩ := exists_datum_of_number? h
  have hcanonical := (hasFields_of_datum hdatum).canonical
  have hm := hcanonical.lt
  have htop := hcanonical.lt_top
  have habs := Datum.eq_natAbs_of_sign_mul (by positivity) heq
  rw [f.two_mul_unit] at hm
  obtain ⟨k, rfl | rfl⟩ := e.eq_nat_or_neg
  · have hn : n.natAbs = m * twoPow k := by
      rw [zpow_natCast, ← cast_twoPow, ← Nat.cast_mul, Nat.cast_inj] at habs
      exact habs.symm
    have hdigits : bitLength n.natAbs ≤ f.precision + k := by
      rw [bitLength_le_iff, hn, twoPow_add]
      exact Nat.mul_lt_mul_of_pos_right hm (twoPow_pos k)
    refine number?_ofInt_of_dvd ?_ ?_
    · rw [hn]
      refine Dvd.dvd.mul_left ?_ m
      rw [← hn]
      exact Nat.pow_dvd_pow 2 (by omega)
    · rw [BinaryFormat.minExponent] at htop
      rw [BinaryFormat.precision] at hdigits
      omega
  · rw [Datum.mul_two_zpow_neg_eq_iff] at habs
    apply number?_ofInt_of_bitLength_le
    rw [bitLength_le_iff]
    refine lt_of_le_of_lt ?_ hm
    rw [habs]
    exact Nat.le_mul_of_pos_right _ (twoPow_pos k)

/-- Rounding leaves nothing behind the point that could be dropped again. -/
theorem number?_ofInt_of_truncate? {n : Int}
    (h : (ofInt f n).datum.truncate? = some n) :
    (ofInt f n).datum.number? = some (n : ℚ) := by
  rcases Nat.le_total (bitLength n.natAbs) f.precision with hle | hge
  · exact number?_ofInt_of_bitLength_le hle
  · have hn : n ≠ 0 := by
      rintro rfl
      exact absurd hge (by cases f <;> decide)
    have hexponent : (bitLength n.natAbs - f.precision : Int) =
        (bitLength n.natAbs - f.precision : Nat) := by omega
    have hfinite : fieldsOf f n.natAbs < f.topExponent * f.unit := by
      by_contra hinfinite
      have hsome := (ofInt f n).datum.isSome_number?
      rw [h, number?_ofInt hn, if_neg hinfinite] at hsome
      cases hsome
    obtain ⟨n', hn'⟩ : ∃ n' : Int,
        (ofInt f n).datum.number? = some (n' : ℚ) := by
      refine ⟨(if n < 0 then -1 else 1) * (f.rounded n.natAbs *
        twoPow (bitLength n.natAbs - f.precision) : Nat), ?_⟩
      rw [number?_ofInt hn, if_pos hfinite, hexponent, zpow_natCast,
        ← cast_twoPow]
      push_cast
      rfl
    have htruncate := (Datum.number?_eq_intCast_iff.1 hn').2
    rw [h] at htruncate
    rw [hn', Option.some.inj htruncate]

/-- No integer is rounded to a zero with a sign and keeps its number. -/
theorem dropZeroSign_ofInt {n : Int}
    (h : (ofInt f n).datum.number? = some (n : ℚ)) :
    (ofInt f n).dropZeroSign = ofInt f n := by
  rw [dropZeroSign, if_neg]
  intro hzero
  rw [hzero, negativeZero, number?_ofMagnitude_zero, Option.some.injEq] at h
  obtain rfl : n = 0 := by exact_mod_cast h.symm
  rw [ofInt_eq] at hzero
  exact zero_ne_negativeZero hzero

end Binary

end KroneckerCode

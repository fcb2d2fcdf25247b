import KroneckerCode.Binary.Format
import Mathlib.Algebra.Order.Field.Rat
import Mathlib.Algebra.Order.Field.Power
import Mathlib.Tactic.Linarith
import Mathlib.Tactic.LinearCombination
import Mathlib.Tactic.NormNum
import Mathlib.Tactic.Ring

/-!
# The number of a floating-point word

A word says `± m * 2 ^ e`, and `Datum.number?` is that number, exactly. Two
questions are asked of it. Is the number an integer, and which? The answer is
that of the two tests that a conversion makes, one for digits behind the point
and one that drops them (`number?_eq_intCast_iff`). And how many words are there
for a number? One, unless it is zero (`eq_of_number?_eq`): a word is made of a
sign, an exponent and a fraction (`ext_fields`), and of all the pairs of a
significand and an exponent for one number only one is `Canonical`.
-/

namespace KroneckerCode

theorem twoPow_add (j k : Nat) : twoPow (j + k) = twoPow j * twoPow k :=
  Nat.pow_add 2 j k

theorem cast_twoPow (k : Nat) : ((twoPow k : Nat) : ℚ) = 2 ^ k := by
  show ((2 ^ k : Nat) : ℚ) = 2 ^ k
  push_cast
  rfl

/-! ## Numbers and whole numbers -/

namespace Datum

/-- The number that is denoted, if one is. -/
def number? : Datum → Option ℚ
  | finite negative m e => some ((if negative then -1 else 1) * (m * 2 ^ e))
  | _ => none

theorem isSome_number? (d : Datum) :
    d.number?.isSome = d.truncate?.isSome := by
  cases d <;> rfl

/-- A number other than zero has a sign and an absolute value. -/
theorem sign_and_abs {negative : Bool} {a q : ℚ} (ha : 0 ≤ a) (hq : q ≠ 0)
    (h : (if negative then -1 else 1) * a = q) :
    negative = decide (q < 0) ∧ a = |q| := by
  have hpos : 0 < a := by
    refine lt_of_le_of_ne ha fun hzero => hq ?_
    rw [← h, ← hzero, mul_zero]
  cases negative with
  | false =>
      rw [if_neg Bool.false_ne_true, one_mul] at h
      rw [← h, abs_of_pos hpos]
      exact ⟨(decide_eq_false (not_lt.2 ha)).symm, rfl⟩
  | true =>
      rw [if_pos rfl, neg_one_mul] at h
      rw [← h, abs_neg, abs_of_pos hpos]
      exact ⟨(decide_eq_true (neg_neg_of_pos hpos)).symm, rfl⟩

theorem eq_natAbs_of_sign_mul {negative : Bool} {a : ℚ} {n : Int} (ha : 0 ≤ a)
    (h : (if negative then -1 else 1) * a = n) : a = n.natAbs := by
  have habs := congrArg abs h
  rw [abs_mul, abs_of_nonneg ha] at habs
  rw [Nat.cast_natAbs, Int.cast_abs, ← habs]
  cases negative <;> simp

/-- What is left in front of the point. -/
def wholePart (m : Nat) (e : Int) : Nat :=
  if 0 ≤ e then m * twoPow e.toNat else m / twoPow (-e).toNat

theorem truncate?_finite (negative : Bool) (m : Nat) (e : Int) :
    (finite negative m e).truncate? =
      some ((if negative then -1 else 1) * (wholePart m e : Int)) := by
  cases negative
  · rw [truncate?, if_neg Bool.false_ne_true, if_neg Bool.false_ne_true,
      Int.one_mul]
    rfl
  · rw [truncate?, if_pos rfl, if_pos rfl, Int.neg_one_mul]
    rfl

theorem mul_two_zpow_neg_eq_iff {m n k : Nat} :
    (m * 2 ^ (-(k : Int)) : ℚ) = n ↔ m = n * twoPow k := by
  have hpos : (0 : ℚ) < 2 ^ k := by positivity
  rw [zpow_neg, zpow_natCast, ← div_eq_mul_inv, div_eq_iff hpos.ne',
    ← cast_twoPow, ← Nat.cast_mul, Nat.cast_inj]

theorem isWhole_neg_iff (negative : Bool) (m k : Nat) :
    (finite negative m (-(k : Int))).isWhole = true ↔ twoPow k ∣ m := by
  rw [isWhole, Bool.or_eq_true, decide_eq_true_iff, beq_iff_eq, Int.neg_neg,
    Int.toNat_natCast, ← Nat.dvd_iff_mod_eq_zero]
  refine or_iff_right_of_imp fun h => ?_
  obtain rfl : k = 0 := by omega
  exact Nat.one_dvd m

theorem wholePart_neg (m k : Nat) :
    wholePart m (-(k : Int)) = m / twoPow k := by
  rw [wholePart, Int.neg_neg, Int.toNat_natCast]
  split
  · obtain rfl : k = 0 := by omega
    exact (Nat.mul_one m).trans (Nat.div_one m).symm
  · rfl

/-- A number that has nothing behind the point is what is in front of it. -/
theorem eq_wholePart_of_isWhole {negative : Bool} {m : Nat} {e : Int}
    (h : (finite negative m e).isWhole = true) :
    (m * 2 ^ e : ℚ) = (wholePart m e : Nat) := by
  obtain ⟨k, rfl | rfl⟩ := e.eq_nat_or_neg
  · rw [wholePart, if_pos (Int.natCast_nonneg k), Int.toNat_natCast,
      Nat.cast_mul, cast_twoPow, zpow_natCast]
  · rw [isWhole_neg_iff] at h
    rw [mul_two_zpow_neg_eq_iff, wholePart_neg, Nat.div_mul_cancel h]

/-- A natural number has nothing behind the point. -/
theorem isWhole_of_eq_natCast {negative : Bool} {m n : Nat} {e : Int}
    (h : (m * 2 ^ e : ℚ) = n) : (finite negative m e).isWhole = true := by
  obtain ⟨k, rfl | rfl⟩ := e.eq_nat_or_neg
  · rw [isWhole, Bool.or_eq_true]
    exact Or.inl (decide_eq_true (Int.natCast_nonneg k))
  · rw [mul_two_zpow_neg_eq_iff] at h
    rw [isWhole_neg_iff, h]
    exact Nat.dvd_mul_left _ _

/-- The number is an integer exactly if nothing is behind the point, and then it
is the integer that is left in front of it. -/
theorem number?_eq_intCast_iff {d : Datum} {n : Int} :
    d.number? = some (n : ℚ) ↔ d.isWhole = true ∧ d.truncate? = some n := by
  cases d with
  | notANumber => simp [number?, isWhole]
  | infinite negative => simp [number?, isWhole]
  | finite negative m e =>
      rw [truncate?_finite, number?, Option.some.injEq, Option.some.injEq]
      constructor
      · intro h
        have hwhole : (finite negative m e).isWhole = true :=
          isWhole_of_eq_natCast (eq_natAbs_of_sign_mul (by positivity) h)
        refine ⟨hwhole, ?_⟩
        rw [eq_wholePart_of_isWhole hwhole] at h
        exact_mod_cast h
      · rintro ⟨hwhole, h⟩
        rw [eq_wholePart_of_isWhole hwhole, ← h]
        push_cast
        rfl

end Datum

/-! ## Words and their fields -/

namespace BinaryFormat

variable (f : BinaryFormat)

/-- The number of fractions, which is the least significand with a hidden digit. -/
def unit : Nat := twoPow f.fractionBits

theorem unit_pos : 0 < f.unit := twoPow_pos _

theorem topExponent_succ : f.topExponent + 1 = twoPow f.exponentBits :=
  Nat.sub_add_cancel (twoPow_pos _)

/-- The words without a sign are those of the exponents and fractions. -/
theorem twoPow_width_sub_one :
    twoPow (f.width - 1) = (f.topExponent + 1) * f.unit := by
  rw [topExponent_succ, unit, ← twoPow_add, width]
  congr 1
  omega

theorem topExponent_mul_unit_lt :
    f.topExponent * f.unit < twoPow (f.width - 1) := by
  rw [twoPow_width_sub_one]
  exact Nat.mul_lt_mul_of_pos_right (Nat.lt_succ_self _) f.unit_pos

theorem twoPow_width : twoPow f.width = 2 * twoPow (f.width - 1) := by
  rw [← twoPow_succ, width]
  congr 1
  omega

end BinaryFormat

namespace Binary

variable {f : BinaryFormat}

/-- The word with this sign and these other bits. -/
def ofMagnitude (f : BinaryFormat) (negative : Bool) (k : Nat) : Binary f :=
  ⟨BitVec.ofNat f.width (if negative then twoPow (f.width - 1) + k else k)⟩

/-- The bits of a word without its sign. -/
def magnitude (x : Binary f) : Nat := x.bits.toNat % twoPow (f.width - 1)

theorem exponentField_eq (x : Binary f) :
    x.exponentField = x.magnitude / f.unit := by
  rw [magnitude, f.twoPow_width_sub_one, f.topExponent_succ, Nat.mul_comm,
    Nat.mod_mul_right_div_self]
  rfl

theorem fractionField_eq (x : Binary f) :
    x.fractionField = x.magnitude % f.unit := by
  rw [magnitude, f.twoPow_width_sub_one, Nat.mul_comm, Nat.mod_mul_right_mod]
  rfl

theorem isNegative_iff (x : Binary f) :
    x.isNegative = true ↔ twoPow (f.width - 1) ≤ x.bits.toNat := by
  rw [isNegative, BitVec.msb_eq_decide, decide_eq_true_iff]
  rfl

section

variable {negative : Bool} {k : Nat}

theorem toNat_ofMagnitude (hk : k < twoPow (f.width - 1)) :
    (ofMagnitude f negative k).bits.toNat =
      if negative then twoPow (f.width - 1) + k else k := by
  have hwidth : 2 ^ f.width = 2 * twoPow (f.width - 1) := f.twoPow_width
  rw [ofMagnitude, BitVec.toNat_ofNat, hwidth]
  apply Nat.mod_eq_of_lt
  split_ifs <;> omega

theorem magnitude_ofMagnitude (hk : k < twoPow (f.width - 1)) :
    (ofMagnitude f negative k).magnitude = k := by
  rw [magnitude, toNat_ofMagnitude hk]
  split_ifs
  · rw [Nat.add_mod_left, Nat.mod_eq_of_lt hk]
  · exact Nat.mod_eq_of_lt hk

theorem isNegative_ofMagnitude (hk : k < twoPow (f.width - 1)) :
    (ofMagnitude f negative k).isNegative = negative := by
  rw [Bool.eq_iff_iff, isNegative_iff, toNat_ofMagnitude hk]
  split_ifs with h
  · exact iff_of_true (Nat.le_add_right _ _) h
  · exact iff_of_false (Nat.not_le.2 hk) h

end

/-- A word is its sign and its other bits. -/
theorem ofMagnitude_magnitude (x : Binary f) :
    ofMagnitude f x.isNegative x.magnitude = x := by
  have hlt : x.magnitude < twoPow (f.width - 1) := Nat.mod_lt _ (twoPow_pos _)
  have hword : x.bits.toNat < 2 * twoPow (f.width - 1) := by
    rw [← f.twoPow_width]
    exact x.bits.isLt
  have hsplit := Nat.mod_add_div' x.bits.toNat (twoPow (f.width - 1))
  rw [Binary.ext_iff, ← BitVec.toNat_inj, toNat_ofMagnitude hlt]
  rw [magnitude] at hlt ⊢
  by_cases hx : twoPow (f.width - 1) ≤ x.bits.toNat
  · rw [if_pos ((isNegative_iff x).2 hx), Nat.mod_eq_sub_mod hx,
      Nat.mod_eq_of_lt (by omega)]
    omega
  · rw [if_neg (mt (isNegative_iff x).1 hx),
      Nat.mod_eq_of_lt (Nat.not_le.1 hx)]

/-- A word is made of its fields. -/
theorem ext_fields {x y : Binary f} (hsign : x.isNegative = y.isNegative)
    (hexponent : x.exponentField = y.exponentField)
    (hfraction : x.fractionField = y.fractionField) : x = y := by
  rw [exponentField_eq, exponentField_eq] at hexponent
  rw [fractionField_eq, fractionField_eq] at hfraction
  have hmagnitude : x.magnitude = y.magnitude := by
    rw [← Nat.mod_add_div' x.magnitude f.unit, hexponent, hfraction,
      Nat.mod_add_div']
  rw [← ofMagnitude_magnitude x, hsign, hmagnitude, ofMagnitude_magnitude]

end Binary

/-! ## One word for one number -/

/-- A significand and an exponent that a word has. The significand has a hidden
digit unless the exponent is the least. -/
structure BinaryFormat.Canonical (f : BinaryFormat) (m : Nat) (e : Int) :
    Prop where
  lt : m < 2 * f.unit
  normal : f.unit ≤ m ∨ e = f.minExponent
  min_le : f.minExponent ≤ e
  lt_top : e + 1 < f.minExponent + f.topExponent

/-- With a greater exponent there would be one digit too many. -/
theorem BinaryFormat.Canonical.exponent_le {f : BinaryFormat} {m m' : Nat}
    {e e' : Int} (h : f.Canonical m e) (h' : f.Canonical m' e')
    (heq : (m * 2 ^ e : ℚ) = m' * 2 ^ e') : e' ≤ e := by
  by_contra hlt
  obtain ⟨k, hk⟩ : ∃ k : Nat, e' = e + (k + 1 : Nat) :=
    ⟨(e' - e - 1).toNat, by omega⟩
  have hpow : (2 : ℚ) ^ e ≠ 0 := by positivity
  have hm : m = m' * twoPow (k + 1) := by
    rw [hk, zpow_add₀ two_ne_zero, zpow_natCast, ← cast_twoPow] at heq
    have hcast : ((m : Nat) : ℚ) = (m' * twoPow (k + 1) : Nat) := by
      rw [Nat.cast_mul]
      apply mul_right_cancel₀ hpow
      linear_combination heq
    exact_mod_cast hcast
  have hnormal := h'.normal.resolve_right (by have := h.min_le; omega)
  have hdouble : 2 * m' ≤ m := by
    rw [hm, twoPow_succ, Nat.mul_left_comm]
    exact Nat.mul_le_mul_left 2 (Nat.le_mul_of_pos_right _ (twoPow_pos k))
  have hlt := h.lt
  omega

theorem BinaryFormat.Canonical.unique {f : BinaryFormat} {m m' : Nat}
    {e e' : Int} (h : f.Canonical m e) (h' : f.Canonical m' e')
    (heq : (m * 2 ^ e : ℚ) = m' * 2 ^ e') : m = m' ∧ e = e' := by
  have hexponent : e = e' :=
    Int.le_antisymm (h'.exponent_le h heq.symm) (h.exponent_le h' heq)
  have hpow : (2 : ℚ) ^ e' ≠ 0 := by positivity
  rw [hexponent] at heq
  exact ⟨by exact_mod_cast mul_right_cancel₀ hpow heq, hexponent⟩

namespace Binary

variable {f : BinaryFormat} {x y : Binary f} {negative : Bool} {m : Nat}
  {e : Int}

theorem fractionField_lt (x : Binary f) : x.fractionField < f.unit :=
  Nat.mod_lt _ f.unit_pos

theorem exponentField_le (x : Binary f) : x.exponentField ≤ f.topExponent := by
  have hlt : x.exponentField < twoPow f.exponentBits :=
    Nat.mod_lt _ (twoPow_pos _)
  rw [← f.topExponent_succ] at hlt
  omega

/-- What the fields are of a word that denotes a number. -/
structure HasFields (x : Binary f) (negative : Bool) (m : Nat) (e : Int) :
    Prop where
  canonical : f.Canonical m e
  isNegative : x.isNegative = negative
  exponentField : (x.exponentField : Int) =
    if m < f.unit then 0 else e - f.minExponent + 1
  fractionField : x.fractionField = if m < f.unit then m else m - f.unit

theorem hasFields_of_datum (h : x.datum = .finite negative m e) :
    x.HasFields negative m e := by
  have hfraction := x.fractionField_lt
  have hexponent := x.exponentField_le
  have htop : 2 < f.topExponent := by cases f <;> decide
  have hunit : twoPow f.fractionBits = f.unit := rfl
  simp only [datum, hunit] at h
  split_ifs at h with htopField hinfinite hzero
  · obtain ⟨rfl, rfl, rfl⟩ := Datum.finite.inj h
    refine ⟨⟨by omega, Or.inr rfl, Int.le_refl _, by omega⟩, rfl, ?_, ?_⟩
    · rw [if_pos hfraction, hzero]
      rfl
    · rw [if_pos hfraction]
  · obtain ⟨rfl, rfl, rfl⟩ := Datum.finite.inj h
    have hnot : ¬ f.unit + x.fractionField < f.unit := by omega
    refine ⟨⟨by omega, Or.inl (by omega), by omega, by omega⟩, rfl, ?_, ?_⟩
    · rw [if_neg hnot]
      omega
    · rw [if_neg hnot]
      omega

theorem HasFields.eq (hx : x.HasFields negative m e)
    (hy : y.HasFields negative m e) : x = y := by
  have hexponent := hx.exponentField.trans hy.exponentField.symm
  exact ext_fields (hx.isNegative.trans hy.isNegative.symm)
    (by exact_mod_cast hexponent) (hx.fractionField.trans hy.fractionField.symm)

/-- A word that denotes a number has a significand and an exponent. -/
theorem exists_datum_of_number? {q : ℚ} (h : x.datum.number? = some q) :
    ∃ negative m e, x.datum = .finite negative m e ∧
      (if negative then -1 else 1) * (m * 2 ^ e : ℚ) = q := by
  cases hdatum : x.datum with
  | notANumber =>
      rw [hdatum] at h
      cases h
  | infinite negative =>
      rw [hdatum] at h
      cases h
  | finite negative m e =>
      rw [hdatum] at h
      exact ⟨negative, m, e, rfl, Option.some.inj h⟩

/-- No two words denote the same number, unless it is zero. -/
theorem eq_of_number?_eq {q : ℚ} (hq : q ≠ 0) (hx : x.datum.number? = some q)
    (hy : y.datum.number? = some q) : x = y := by
  obtain ⟨negative, m, e, hdatum, heq⟩ := exists_datum_of_number? hx
  obtain ⟨negative', m', e', hdatum', heq'⟩ := exists_datum_of_number? hy
  have hfields := hasFields_of_datum hdatum
  have hfields' := hasFields_of_datum hdatum'
  obtain ⟨hsign, hmag⟩ := Datum.sign_and_abs (by positivity) hq heq
  obtain ⟨hsign', hmag'⟩ := Datum.sign_and_abs (by positivity) hq heq'
  obtain rfl : negative = negative' := hsign.trans hsign'.symm
  obtain ⟨rfl, rfl⟩ :=
    hfields.canonical.unique hfields'.canonical (hmag.trans hmag'.symm)
  exact hfields.eq hfields'

/-! ## The two words for zero -/

/-- The word for zero. -/
def zero (f : BinaryFormat) : Binary f := ofMagnitude f false 0

/-- The word for zero with a minus. -/
def negativeZero (f : BinaryFormat) : Binary f := ofMagnitude f true 0

/-- The word with the sign taken from zero. -/
def dropZeroSign (x : Binary f) : Binary f :=
  if x = negativeZero f then zero f else x

theorem number?_ofMagnitude_zero (f : BinaryFormat) (negative : Bool) :
    (ofMagnitude f negative 0).datum.number? = some 0 := by
  have hlt : 0 < twoPow (f.width - 1) := twoPow_pos _
  have htop : 0 ≠ f.topExponent := by cases f <;> decide
  have hexponent : (ofMagnitude f negative 0).exponentField = 0 := by
    rw [exponentField_eq, magnitude_ofMagnitude hlt, Nat.zero_div]
  have hfraction : (ofMagnitude f negative 0).fractionField = 0 := by
    rw [fractionField_eq, magnitude_ofMagnitude hlt, Nat.zero_mod]
  rw [datum, hexponent, hfraction, if_neg htop, if_pos rfl, Datum.number?]
  simp

theorem number?_dropZeroSign (x : Binary f) :
    x.dropZeroSign.datum.number? = x.datum.number? := by
  rw [dropZeroSign]
  split
  · next h =>
      rw [h, zero, negativeZero, number?_ofMagnitude_zero,
        number?_ofMagnitude_zero]
  · rfl

theorem zero_ne_negativeZero : zero f ≠ negativeZero f := by
  intro h
  have hlt : 0 < twoPow (f.width - 1) := twoPow_pos _
  have hsign := congrArg isNegative h
  rw [zero, negativeZero, isNegative_ofMagnitude hlt,
    isNegative_ofMagnitude hlt] at hsign
  cases hsign

theorem dropZeroSign_zero : (zero f).dropZeroSign = zero f :=
  if_neg zero_ne_negativeZero

theorem dropZeroSign_negativeZero : (negativeZero f).dropZeroSign = zero f :=
  if_pos rfl

theorem dropZeroSign_dropZeroSign (x : Binary f) :
    x.dropZeroSign.dropZeroSign = x.dropZeroSign := by
  apply if_neg
  rw [dropZeroSign]
  split
  · exact zero_ne_negativeZero
  · assumption

theorem dropZeroSign_of_number?_zero (h : x.datum.number? = some 0) :
    x.dropZeroSign = zero f := by
  obtain ⟨negative, m, e, hdatum, heq⟩ := exists_datum_of_number? h
  have hm : m = 0 := by
    have hpow : (2 : ℚ) ^ e ≠ 0 := by positivity
    cases negative <;> simpa [hpow] using heq
  have hunit := f.unit_pos
  have hlt : 0 < twoPow (f.width - 1) := twoPow_pos _
  have hfields := hasFields_of_datum hdatum
  have hword : x = ofMagnitude f negative 0 := by
    have hexponent := hfields.exponentField
    have hfraction := hfields.fractionField
    rw [hm, if_pos hunit] at hexponent hfraction
    apply ext_fields
    · rw [hfields.isNegative, isNegative_ofMagnitude hlt]
    · rw [exponentField_eq (ofMagnitude f negative 0),
        magnitude_ofMagnitude hlt, Nat.zero_div]
      exact_mod_cast hexponent
    · rw [hfraction, fractionField_eq, magnitude_ofMagnitude hlt, Nat.zero_mod]
  cases negative with
  | false => rw [hword, ← zero, dropZeroSign_zero]
  | true => rw [hword, ← negativeZero, dropZeroSign_negativeZero]

/-- Apart from the sign of zero there is one word for a number. -/
theorem dropZeroSign_eq_of_number?_eq {q : ℚ} (hx : x.datum.number? = some q)
    (hy : y.datum.number? = some q) : x.dropZeroSign = y.dropZeroSign := by
  rcases eq_or_ne q 0 with rfl | hq
  · rw [dropZeroSign_of_number?_zero hx, dropZeroSign_of_number?_zero hy]
  · rw [eq_of_number?_eq hq hx hy]

end Binary

end KroneckerCode

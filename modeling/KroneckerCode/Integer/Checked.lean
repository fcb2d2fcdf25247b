/-!
# Checked arithmetic on 64-bit words

Each operation answers with the exact result if it fits in one word, and with
nothing otherwise. The word itself comes from the machine operation; the test
beside it says whether that operation was exact. Division by zero has no result
and is refused like one that does not fit.
-/

namespace KroneckerCode.Checked

/-- The sum, if a word holds it. -/
def add (a b : Int64) : Option Int64 :=
  if a.toBitVec.saddOverflow b.toBitVec then none else some (a + b)

/-- The difference, if a word holds it. -/
def sub (a b : Int64) : Option Int64 :=
  if a.toBitVec.ssubOverflow b.toBitVec then none else some (a - b)

/-- The product, if a word holds it. -/
def mul (a b : Int64) : Option Int64 :=
  if a.toBitVec.smulOverflow b.toBitVec then none else some (a * b)

/-- Whether the quotient of `a` and `b` does not exist or does not fit. -/
def divFails (a b : Int64) : Bool :=
  b == 0 || (a == Int64.minValue && b == -1)

/-- The quotient, cut toward zero, if it exists and fits. -/
def div (a b : Int64) : Option Int64 :=
  if divFails a b then none else some (a / b)

/--
The remainder, with the sign of the dividend, if the quotient exists and fits.
It is the quotient that counts: the remainder of the least word by `-1` is zero,
and still it is refused.
-/
def mod (a b : Int64) : Option Int64 :=
  if divFails a b then none else some (a % b)

/-- The opposite, if a word holds it. -/
def neg (a : Int64) : Option Int64 :=
  if a == Int64.minValue then none else some (-a)

/-- The absolute value, if a word holds it. -/
def abs (a : Int64) : Option Int64 :=
  if a < 0 then neg a else some a

/--
The loop of `pow`, for an exponent that is not zero: the answer is
`acc * base ^ exp`. The base is squared only while the exponent has a higher
digit that will use the square.
-/
def powFrom (acc base : Int64) (exp : Nat) : Option Int64 :=
  if exp ≤ 1 then
    mul acc base
  else do
    let acc ← if exp % 2 = 1 then mul acc base else some acc
    let base ← mul base base
    powFrom acc base (exp / 2)
termination_by exp

/-- The power, if a word holds it. -/
def pow (base : Int64) (exp : Nat) : Option Int64 :=
  if exp = 0 then some 1 else powFrom 1 base exp

/-! ## When the answer is a word

Each operation answers exactly with the words that denote the exact result. For
the ones whose test speaks of overflow the argument is one and the same: inside
the limits nothing is reduced, and outside no word can be meant. -/

theorem toInt_bounds (a : Int64) :
    -9223372036854775808 ≤ a.toInt ∧ a.toInt < 9223372036854775808 :=
  ⟨Int64.le_toInt a, Int64.toInt_lt a⟩

theorem eq_some_iff_of_overflow {n : Int} {w c : Int64} {overflow : Bool}
    (hw : w.toInt = n.bmod 18446744073709551616)
    (ho : overflow = true ↔ n < -9223372036854775808 ∨ 9223372036854775808 ≤ n) :
    (if overflow then none else some w) = some c ↔ c.toInt = n := by
  cases overflow with
  | true =>
    have h := ho.1 rfl
    have hc := toInt_bounds c
    simp only [if_true, reduceCtorEq, false_iff]
    omega
  | false =>
    have h : ¬ (n < -9223372036854775808 ∨ 9223372036854775808 ≤ n) := fun e => by
      cases ho.2 e
    rw [Int.bmod_eq_of_le (by omega) (by omega)] at hw
    simp only [Bool.false_eq_true, if_false, Option.some.injEq, ← hw]
    exact ⟨fun e => by rw [e], fun e => (Int64.toInt_inj.1 e).symm⟩

theorem add_eq_some_iff {a b c : Int64} : add a b = some c ↔ c.toInt = a.toInt + b.toInt := by
  apply eq_some_iff_of_overflow (Int64.toInt_add a b)
  simp only [BitVec.saddOverflow, Int64.toInt_toBitVec, Bool.or_eq_true, decide_eq_true_eq]
  omega

theorem sub_eq_some_iff {a b c : Int64} : sub a b = some c ↔ c.toInt = a.toInt - b.toInt := by
  apply eq_some_iff_of_overflow (Int64.toInt_sub a b)
  simp only [BitVec.ssubOverflow, Int64.toInt_toBitVec, Bool.or_eq_true, decide_eq_true_eq]
  omega

theorem mul_eq_some_iff {a b c : Int64} : mul a b = some c ↔ c.toInt = a.toInt * b.toInt := by
  apply eq_some_iff_of_overflow (Int64.toInt_mul a b)
  simp only [BitVec.smulOverflow, Int64.toInt_toBitVec, Bool.or_eq_true, decide_eq_true_eq]
  generalize a.toInt * b.toInt = n
  omega

theorem eq_minValue_iff {a : Int64} : a = Int64.minValue ↔ a.toInt = -9223372036854775808 := by
  rw [← Int64.toInt_inj]
  exact Iff.rfl

theorem neg_eq_some_iff {a c : Int64} : neg a = some c ↔ c.toInt = -a.toInt := by
  apply eq_some_iff_of_overflow (Int64.toInt_neg a)
  have ha := toInt_bounds a
  rw [beq_iff_eq, eq_minValue_iff]
  omega

theorem abs_eq_some_iff {a c : Int64} : abs a = some c ↔ c.toInt = a.toInt.natAbs := by
  unfold abs
  have h : a < 0 ↔ a.toInt < 0 := Int64.lt_iff_toInt_lt
  split
  next hneg =>
    have ha := h.1 hneg
    rw [neg_eq_some_iff]
    omega
  next hneg =>
    have ha := mt h.2 hneg
    rw [Option.some.injEq, ← Int64.toInt_inj]
    omega

theorem divFails_eq_true_iff {a b : Int64} :
    divFails a b = true ↔
      b.toInt = 0 ∨ (a.toInt = -9223372036854775808 ∧ b.toInt = -1) := by
  have hz : b = 0 ↔ b.toInt = 0 := by
    rw [← Int64.toInt_inj]
    exact Iff.rfl
  have hm : b = -1 ↔ b.toInt = -1 := by
    rw [← Int64.toInt_inj]
    exact Iff.rfl
  simp only [divFails, Bool.or_eq_true, Bool.and_eq_true, beq_iff_eq, hz, hm, eq_minValue_iff]

/-- Away from the one quotient that does not fit, the machine divides exactly. -/
theorem toInt_div_of_not_divFails {a b : Int64} (h : divFails a b = false) :
    (a / b).toInt = a.toInt.tdiv b.toInt := by
  have h : ¬ (b.toInt = 0 ∨ (a.toInt = -9223372036854775808 ∧ b.toInt = -1)) := fun e => by
    rw [divFails_eq_true_iff.2 e] at h
    cases h
  by_cases ha : a = Int64.minValue
  · apply Int64.toInt_div_of_ne_right
    intro hb
    rw [eq_minValue_iff] at ha
    rw [← Int64.toInt_inj] at hb
    exact h (Or.inr ⟨ha, hb⟩)
  · exact Int64.toInt_div_of_ne_left a b ha

theorem toInt_of_div_eq_some {a b c : Int64} (h : div a b = some c) :
    c.toInt = a.toInt.tdiv b.toInt := by
  unfold div at h
  split at h
  next => cases h
  next hf =>
    rw [← Option.some.inj h]
    exact toInt_div_of_not_divFails (Bool.eq_false_iff.2 hf)

theorem toInt_of_mod_eq_some {a b c : Int64} (h : mod a b = some c) :
    c.toInt = a.toInt.tmod b.toInt := by
  unfold mod at h
  split at h
  next => cases h
  next =>
    rw [← Option.some.inj h]
    exact Int64.toInt_mod a b

end KroneckerCode.Checked

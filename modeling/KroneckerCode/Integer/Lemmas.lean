import KroneckerCode.Integer.Basic

/-!
# The value of each operation on integers

Whatever the storage of the operands, the value of a result is the exact result
for their values. For two inline operands this is what the checked operations
promise when they answer, and what the unbounded ones compute when they do not;
with a large operand there is only the latter. So the storage never shows in a
value, and what is true of values can be proved in `Int`.
-/

namespace KroneckerCode.Integer

@[simp] theorem value_promote (a : Integer) : a.promote.value = a.value := rfl

@[simp] theorem isInline_promote (a : Integer) : a.promote.isInline = false := rfl

theorem value_combine {onWords : Int64 → Int64 → Option Int64} {unbounded : Int → Int → Int}
    (exact_of_some : ∀ {a b c : Int64}, onWords a b = some c →
      c.toInt = unbounded a.toInt b.toInt) (x y : Integer) :
    (combine onWords unbounded x y).value = unbounded x.value y.value := by
  cases x with
  | large n => rfl
  | inline a =>
    cases y with
    | large n => rfl
    | inline b =>
      simp only [combine]
      split
      next w h => exact exact_of_some h
      next => rfl

@[simp] theorem value_add (x y : Integer) : (x + y).value = x.value + y.value :=
  value_combine Checked.add_eq_some_iff.1 x y

@[simp] theorem value_sub (x y : Integer) : (x - y).value = x.value - y.value :=
  value_combine Checked.sub_eq_some_iff.1 x y

@[simp] theorem value_mul (x y : Integer) : (x * y).value = x.value * y.value :=
  value_combine Checked.mul_eq_some_iff.1 x y

@[simp] theorem value_neg (x : Integer) : (-x).value = -x.value := by
  change x.neg.value = -x.value
  cases x with
  | large n => rfl
  | inline a =>
    simp only [neg]
    split
    next w h => exact Checked.neg_eq_some_iff.1 h
    next => rfl

@[simp] theorem value_abs (x : Integer) : x.abs.value = x.value.natAbs := by
  cases x with
  | large n => rfl
  | inline a =>
    simp only [abs]
    split
    next w h => exact Checked.abs_eq_some_iff.1 h
    next => rfl

/-- A quotient exists exactly for a divisor other than zero. -/
theorem div_eq_ok {x y : Integer} (hy : y.value ≠ 0) :
    ∃ q, x.div y = .ok q ∧ q.value = x.value.tdiv y.value :=
  ⟨_, if_neg hy, value_combine Checked.toInt_of_div_eq_some x y⟩

/-- A remainder exists exactly for a divisor other than zero. -/
theorem mod_eq_ok {x y : Integer} (hy : y.value ≠ 0) :
    ∃ r, x.mod y = .ok r ∧ r.value = x.value.tmod y.value :=
  ⟨_, if_neg hy, value_combine Checked.toInt_of_mod_eq_some x y⟩

@[simp] theorem value_ofInt (n : Int) : (ofInt n).value = n := by
  unfold ofInt
  split
  next h =>
    have h₁ : -2 ^ 63 ≤ n := h.1
    have h₂ : n ≤ 2 ^ 63 - 1 := h.2
    exact Int64.toInt_ofInt_of_le h₁ (by omega)
  next => rfl

theorem isInline_ofInt (n : Int) : (ofInt n).isInline = true ↔ WordSize.w64.Holds n := by
  unfold ofInt
  split
  next h => simp [isInline, h]
  next h => simp [isInline, h]

end KroneckerCode.Integer

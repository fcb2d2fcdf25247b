import KroneckerCode.Proofs.Integer.Program

/-!
# Which results are inline

An operation on inline integers is first tried on their words. A word answers
exactly if the exact result is one, with a single exception: the remainder is
refused where the quotient is, and the quotient of the least word by `-1` is no
word, though the remainder is zero. An operation with a large operand is not
tried on words at all. So there is one law for all of them, `isInline_apply` and
`isInline_of_apply`: inline are the results of inline operands that fit.

The next prime is the end of a run of additions, and each of them may be the one
that leaves the words. But the candidates only grow. If the last of them fits,
then so do all, and if it does not, then one of the additions was refused
(`isInline_nextPrimeFrom`).
-/

namespace KroneckerCode

namespace Checked

variable {a b c : Int64} {n : Int}

theorem exists_toInt_iff : (∃ c : Int64, c.toInt = n) ↔ WordSize.w64.Holds n := by
  have hmax : WordSize.w64.maxValue = 9223372036854775807 := by decide
  constructor
  · intro ⟨c, hc⟩
    rw [← hc]
    exact Integer.holds_toInt c
  · intro ⟨hlo, hhi⟩
    exact exists_word hlo (by omega)

/-- If `n` is the only possible answer, there is one exactly if `n` fits. -/
theorem isSome_iff_holds {answer : Option Int64}
    (h : ∀ c, answer = some c ↔ c.toInt = n) :
    answer.isSome = true ↔ WordSize.w64.Holds n := by
  simp only [Option.isSome_iff_exists, h, exists_toInt_iff]

theorem isSome_div_iff :
    (div a b).isSome = true ↔
      b.toInt ≠ 0 ∧ WordSize.w64.Holds (a.toInt.tdiv b.toInt) := by
  rw [div]
  cases hfails : divFails a b with
  | true =>
      rw [if_pos rfl]
      refine iff_of_false Bool.false_ne_true fun ⟨hzero, hfits⟩ => ?_
      obtain ⟨hleast, hminus⟩ :=
        (divFails_eq_true_iff.1 hfails).resolve_left hzero
      rw [hleast, hminus] at hfits
      exact absurd hfits (by decide)
  | false =>
      rw [if_neg Bool.false_ne_true, ← toInt_div_of_not_divFails hfails]
      refine iff_of_true rfl ⟨fun hzero => ?_, Integer.holds_toInt _⟩
      rw [divFails_eq_true_iff.2 (Or.inl hzero)] at hfails
      cases hfails

/-- The remainder itself would always fit. -/
theorem isSome_mod_iff :
    (mod a b).isSome = true ↔
      b.toInt ≠ 0 ∧ WordSize.w64.Holds (a.toInt.tmod b.toInt) ∧
        ¬ (a.toInt = WordSize.w64.minValue ∧ b.toInt = -1) := by
  have hleast : WordSize.w64.minValue = -9223372036854775808 := by decide
  rw [← Int64.toInt_mod, and_iff_right (Integer.holds_toInt _), hleast,
    ne_eq, ← not_or, ← divFails_eq_true_iff, mod]
  cases divFails a b <;> simp

end Checked

namespace Integer

variable {a b c : Integer}

theorem holds_of_isInline (h : a.isInline = true) :
    WordSize.w64.Holds a.value := by
  cases a with
  | inline w => exact holds_toInt w
  | large n => cases h

/-! ## Operations on words -/

theorem isInline_combine {onWords : Int64 → Int64 → Option Int64}
    {unbounded : Int → Int → Int} (fits : Int → Int → Prop)
    (h : ∀ v w, (onWords v w).isSome = true ↔ fits v.toInt w.toInt)
    (a b : Integer) :
    (combine onWords unbounded a b).isInline = true ↔
      a.isInline = true ∧ b.isInline = true ∧ fits a.value b.value := by
  cases a with
  | large m => simp [combine, isInline]
  | inline v =>
      cases b with
      | large n => simp [combine, isInline]
      | inline w =>
          simp only [combine, value, ← h]
          cases onWords v w <;> simp [isInline]

theorem isInline_combine_of_exact {onWords : Int64 → Int64 → Option Int64}
    {unbounded : Int → Int → Int}
    (h : ∀ {v w c}, onWords v w = some c ↔
      c.toInt = unbounded v.toInt w.toInt) (a b : Integer) :
    (combine onWords unbounded a b).isInline = true ↔
      a.isInline = true ∧ b.isInline = true ∧
        WordSize.w64.Holds (unbounded a.value b.value) :=
  isInline_combine (fun m n => WordSize.w64.Holds (unbounded m n))
    (fun _ _ => Checked.isSome_iff_holds fun _ => h) a b

theorem isInline_add : (a + b).isInline = true ↔
    a.isInline = true ∧ b.isInline = true ∧
      WordSize.w64.Holds (a.value + b.value) :=
  isInline_combine_of_exact Checked.add_eq_some_iff a b

theorem isInline_sub : (a - b).isInline = true ↔
    a.isInline = true ∧ b.isInline = true ∧
      WordSize.w64.Holds (a.value - b.value) :=
  isInline_combine_of_exact Checked.sub_eq_some_iff a b

theorem isInline_mul : (a * b).isInline = true ↔
    a.isInline = true ∧ b.isInline = true ∧
      WordSize.w64.Holds (a.value * b.value) :=
  isInline_combine_of_exact Checked.mul_eq_some_iff a b

theorem isInline_neg : (-a).isInline = true ↔
    a.isInline = true ∧ WordSize.w64.Holds (-a.value) := by
  show a.neg.isInline = true ↔ _
  cases a with
  | large n => simp [neg, isInline]
  | inline w =>
      have hfits : (Checked.neg w).isSome = true ↔
          WordSize.w64.Holds (-w.toInt) :=
        Checked.isSome_iff_holds fun _ => Checked.neg_eq_some_iff
      simp only [neg, value, ← hfits]
      cases Checked.neg w <;> simp [isInline]

theorem isInline_abs : a.abs.isInline = true ↔
    a.isInline = true ∧ WordSize.w64.Holds a.value.natAbs := by
  cases a with
  | large n => simp [abs, isInline]
  | inline w =>
      have hfits : (Checked.abs w).isSome = true ↔
          WordSize.w64.Holds w.toInt.natAbs :=
        Checked.isSome_iff_holds fun _ => Checked.abs_eq_some_iff
      simp only [abs, value, ← hfits]
      cases Checked.abs w <;> simp [isInline]

theorem isInline_pow {exp : Nat} : (a.pow exp).isInline = true ↔
    a.isInline = true ∧ WordSize.w64.Holds (a.value ^ exp) := by
  cases a with
  | large n => simp [pow, isInline]
  | inline w =>
      have hfits : (Checked.pow w exp).isSome = true ↔
          WordSize.w64.Holds (w.toInt ^ exp) :=
        Checked.isSome_iff_holds fun _ => Checked.pow_eq_some_iff
      simp only [pow, value, ← hfits]
      cases Checked.pow w exp <;> simp [isInline]

theorem isInline_of_div (h : a.div b = .ok c) : c.isInline = true ↔
    a.isInline = true ∧ b.isInline = true ∧ WordSize.w64.Holds c.value := by
  rw [div] at h
  split at h
  · cases h
  · next hzero =>
      have hvalue := value_combine Checked.toInt_of_div_eq_some a b
      obtain rfl := Except.ok.inj h
      rw [hvalue, isInline_combine
        (fun m n => n ≠ 0 ∧ WordSize.w64.Holds (m.tdiv n))
        (fun _ _ => Checked.isSome_div_iff), and_iff_right hzero]

theorem isInline_of_mod (h : a.mod b = .ok c) : c.isInline = true ↔
    a.isInline = true ∧ b.isInline = true ∧ WordSize.w64.Holds c.value ∧
      ¬ (a.value = WordSize.w64.minValue ∧ b.value = -1) := by
  rw [mod] at h
  split at h
  · cases h
  · next hzero =>
      have hvalue := value_combine Checked.toInt_of_mod_eq_some a b
      obtain rfl := Except.ok.inj h
      rw [hvalue, isInline_combine
        (fun m n => n ≠ 0 ∧ WordSize.w64.Holds (m.tmod n) ∧
          ¬ (m = WordSize.w64.minValue ∧ n = -1))
        (fun _ _ => Checked.isSome_mod_iff), and_iff_right hzero]

/-! ## The next prime -/

theorem isInline_add_word {w : Int64} : (a + inline w).isInline = true ↔
    a.isInline = true ∧ WordSize.w64.Holds (a.value + w.toInt) := by
  rw [isInline_add]
  simp [isInline, value]

/-- A search among growing numbers ends inline if it starts inline and its end
fits. -/
theorem isInline_nextPrimeFrom (fuel : Nat) (a : Integer) :
    (nextPrimeFrom fuel a).isInline = true ↔
      a.isInline = true ∧
        WordSize.w64.Holds (nextPrimeFrom fuel a).value := by
  induction fuel generalizing a with
  | zero => exact ⟨fun h => ⟨h, holds_of_isInline h⟩, fun h => h.1⟩
  | succ fuel ih =>
      rw [nextPrimeFrom]
      split
      · exact ⟨fun h => ⟨h, holds_of_isInline h⟩, fun h => h.1⟩
      · obtain ⟨k, hk⟩ := value_nextPrimeFrom fuel (a + inline 2)
        rw [ih, isInline_add_word, and_assoc]
        refine and_congr_right fun ha => and_iff_right_of_imp fun hend => ?_
        have htwo : (2 : Int64).toInt = 2 := rfl
        rw [hk, value_add_two] at hend
        exact (holds_of_isInline ha).of_between hend (by omega) (by omega)

theorem isInline_firstOdd : a.firstOdd.isInline = true ↔
    a.isInline = true ∧ WordSize.w64.Holds a.firstOdd.value := by
  have hone : (1 : Int64).toInt = 1 := rfl
  rw [firstOdd]
  split
  · rw [isInline_add_word, value_add, hone]
    rfl
  · exact ⟨fun h => ⟨h, holds_of_isInline h⟩, fun h => h.1⟩

theorem isInline_nextPrime : a.nextPrime.isInline = true ↔
    a.value ≤ 2 ∨
      a.isInline = true ∧ WordSize.w64.Holds a.nextPrime.value := by
  by_cases h : a.value ≤ 2
  · rw [nextPrime_of_le_two h]
    exact iff_of_true rfl (Or.inl h)
  · have hbig : 2 < a.value := Int.not_le.1 h
    obtain ⟨_, hle, _⟩ := value_firstOdd a
    obtain ⟨k, hk⟩ := value_nextPrimeFrom a.firstOdd.value.toNat a.firstOdd
    rw [or_iff_right h, nextPrime_of_two_lt hbig, isInline_nextPrimeFrom,
      isInline_firstOdd, and_assoc]
    refine and_congr_right fun ha => and_iff_right_of_imp fun hend => ?_
    exact (holds_of_isInline ha).of_between hend hle (by omega)

/-! ## The law -/

namespace Program

/-- Whether the result of an operation on `n` is inline. -/
def UnaryOp.KeepsInline (op : UnaryOp) (n result : Int) (isInline : Prop) :
    Prop :=
  match op with
  | copy => isInline
  | abs | neg | pow _ => isInline ∧ WordSize.w64.Holds result
  | nextPrime => n ≤ 2 ∨ isInline ∧ WordSize.w64.Holds result

/-- Whether the result of an operation on `m` and `n` is inline. -/
def BinaryOp.KeepsInline (op : BinaryOp) (m n result : Int)
    (isInline isInline' : Prop) : Prop :=
  isInline ∧ isInline' ∧ WordSize.w64.Holds result ∧
    ¬ (op = .mod ∧ m = WordSize.w64.minValue ∧ n = -1)

theorem isInline_apply (op : UnaryOp) (a : Integer) :
    (op.apply a).isInline = true ↔
      op.KeepsInline a.value (op.apply a).value (a.isInline = true) := by
  cases op with
  | copy => exact Iff.rfl
  | abs =>
      rw [UnaryOp.apply, value_abs]
      exact isInline_abs
  | neg =>
      rw [UnaryOp.apply, value_neg]
      exact isInline_neg
  | pow exp =>
      rw [UnaryOp.apply, value_pow]
      exact isInline_pow
  | nextPrime => exact isInline_nextPrime

theorem isInline_of_apply {op : BinaryOp} (h : op.apply a b = .ok c) :
    c.isInline = true ↔
      op.KeepsInline a.value b.value c.value (a.isInline = true)
        (b.isInline = true) := by
  cases op with
  | add =>
      cases h
      simp [BinaryOp.KeepsInline, isInline_add]
  | sub =>
      cases h
      simp [BinaryOp.KeepsInline, isInline_sub]
  | mul =>
      cases h
      simp [BinaryOp.KeepsInline, isInline_mul]
  | div => simp [BinaryOp.KeepsInline, isInline_of_div h]
  | mod => simp [BinaryOp.KeepsInline, isInline_of_mod h]

theorem isInline_of_load {origin : Origin} (h : origin.load = .ok a) :
    a.isInline = true ↔ WordSize.w64.Holds a.value := by
  cases origin with
  | word w =>
      cases h
      exact iff_of_true rfl (holds_toInt w)
  | machine t x =>
      cases h
      rw [ofRanged, isInline_ofInt, value_ofInt]
  | unbounded n =>
      cases h
      rw [isInline_ofInt, value_ofInt]
  | numeral text radix =>
      rw [Origin.load, ofNumeral] at h
      cases hread : Numeral.read radix text.toList with
      | error err =>
          rw [hread] at h
          cases h
      | ok n =>
          rw [hread] at h
          cases h
          rw [isInline_ofInt, value_ofInt]
  | zero =>
      cases h
      exact iff_of_true rfl (by decide)
  | one =>
      cases h
      exact iff_of_true rfl (by decide)

end Program

end Integer

end KroneckerCode

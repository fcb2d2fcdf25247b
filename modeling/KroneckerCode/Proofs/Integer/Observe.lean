import KroneckerCode.Integer.Program
import KroneckerCode.Proofs.Integer.Prime
import KroneckerCode.Proofs.Word.Exact

/-!
# Nothing but `isInline` tells storages apart

An inline integer answers from its word and a large one from its value, and the
answers are those of the value in both cases. For each kind of question there is
one lemma that says so; the words are compared, negated and counted by their
bits, and that is where the arguments are. Put together they are one equation:
an observation is a function of the value, `Observation.ofValue`.
-/

namespace KroneckerCode.Integer

/-- What is seen of the integer `n`. -/
def Observation.ofValue (n : Int) : Observation where
  text := toString n
  debugText := s!"Integer({n})"
  sign := n.sign
  isNegative := decide (n < 0)
  isPositive := decide (0 < n)
  isZero := decide (n = 0)
  isOne := decide (n = 1)
  isEven := decide (n % 2 = 0)
  bitLength := KroneckerCode.bitLength n.natAbs
  int64 := if WordSize.w64.Holds n then some n else none
  int128 := if WordSize.w128.Holds n then some n else none
  value := n

variable {a b : Integer}

theorem sign_eq (a : Integer) : a.sign = a.value.sign := by
  cases a with
  | large n => rfl
  | inline w =>
      have hzero : (0 : Int64).toInt = 0 := rfl
      simp only [sign, value, Int64.lt_iff_toInt_lt, ← Int64.toInt_inj, hzero]
      split_ifs with hneg hnull
      · exact (Int.sign_eq_neg_one_of_neg hneg).symm
      · rw [hnull]
        rfl
      · exact (Int.sign_eq_one_of_pos (by omega)).symm

theorem isOne_iff (a : Integer) : a.isOne = true ↔ a.value = 1 := by
  cases a with
  | large n => simp only [isOne, value, beq_iff_eq]
  | inline w =>
      have hone : (1 : Int64).toInt = 1 := rfl
      simp only [isOne, value, beq_iff_eq, ← Int64.toInt_inj, hone]

theorem bitLength_eq (a : Integer) :
    a.bitLength = KroneckerCode.bitLength a.value.natAbs := by
  cases a with
  | large n => rfl
  | inline w => rw [bitLength, toNat_magnitude, value]

theorem holds_toInt (w : Int64) : WordSize.w64.Holds w.toInt := by
  have hmax : WordSize.w64.maxValue = 9223372036854775807 := by decide
  obtain ⟨hlo, hhi⟩ := Checked.toInt_bounds w
  exact ⟨hlo, by omega⟩

theorem holds_w128 {s : WordSize} {n : Int} (h : s.Holds n) :
    WordSize.w128.Holds n := by
  have hlo : WordSize.w128.Holds s.minValue := by cases s <;> decide
  have hhi : WordSize.w128.Holds s.maxValue := by cases s <;> decide
  exact hlo.of_between hhi h.1 h.2

theorem toInt64?_eq (a : Integer) :
    a.toInt64? = if WordSize.w64.Holds a.value then some a.value else none := by
  cases a with
  | large n => rfl
  | inline w => exact (if_pos (holds_toInt w)).symm

theorem toInt128?_eq (a : Integer) :
    a.toInt128? =
      if WordSize.w128.Holds a.value then some a.value else none := by
  cases a with
  | large n => rfl
  | inline w =>
      exact (if_pos (holds_w128 (holds_toInt w))).symm

/-- No word is wider than 128 bits, so none is lost on the way through them. -/
theorem toWord?_eq (s : WordSize) (a : Integer) :
    a.toWord? s = Word.ofInt? a.value := by
  rw [toWord?, toInt128?_eq]
  split
  · rfl
  · next hout =>
      exact (Word.ofInt?_eq_none_iff.2 fun h => hout (holds_w128 h)).symm

theorem isSome_toWord?_iff (s : WordSize) (a : Integer) :
    (a.toWord? s).isSome ↔ s.Holds a.value := by
  rw [toWord?_eq, Option.isSome_iff_ne_none, ne_eq, Word.ofInt?_eq_none_iff,
    not_not]

/-- Every answer is that of the value. -/
theorem observe_eq (a : Integer) : a.observe = Observation.ofValue a.value := by
  have hzero : a.isZero = decide (a.value = 0) := by
    rw [isZero, sign_eq, Bool.eq_iff_iff, beq_iff_eq, decide_eq_true_iff,
      Int.sign_eq_zero_iff_zero]
  have hneg : a.isNegative = decide (a.value < 0) := by
    rw [isNegative, sign_eq, Bool.eq_iff_iff, decide_eq_true_iff,
      decide_eq_true_iff, Int.sign_neg_iff]
  have hpos : a.isPositive = decide (0 < a.value) := by
    rw [Bool.eq_iff_iff, isPositive_iff, decide_eq_true_iff]
  have hone : a.isOne = decide (a.value = 1) := by
    rw [Bool.eq_iff_iff, isOne_iff, decide_eq_true_iff]
  have heven : a.isEven = decide (a.value % 2 = 0) := by
    rw [Bool.eq_iff_iff, isEven_iff, decide_eq_true_iff]
  rw [observe, Observation.ofValue, hzero, hneg, hpos, hone, heven, sign_eq,
    bitLength_eq, toInt64?_eq, toInt128?_eq]
  rfl

theorem hashKey_eq (a : Integer) :
    a.hashKey = if WordSize.w128.Holds a.value then .word a.value
      else .big a.value := by
  rw [hashKey, toInt128?_eq]
  split_ifs <;> rfl

/-- A hash is fed with the value and with nothing else. -/
theorem hashKey_eq_iff : a.hashKey = b.hashKey ↔ a.value = b.value := by
  rw [hashKey_eq, hashKey_eq]
  refine ⟨fun h => ?_, fun h => by rw [h]⟩
  split_ifs at h
  · exact HashKey.word.inj h
  · exact HashKey.big.inj h

theorem compareWith_eq (a b : Integer) :
    a.compareWith b =
      ⟨Ord.compare a.value b.value, decide (a.value = b.value)⟩ := by
  have hhash : (a.hashKey == b.hashKey) = decide (a.value = b.value) := by
    rw [Bool.eq_iff_iff, beq_iff_eq, hashKey_eq_iff, decide_eq_true_iff]
  rw [compareWith, compare_eq, hhash]

end KroneckerCode.Integer

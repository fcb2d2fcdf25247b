import KroneckerCode.Encoder.Basic
import KroneckerCode.Proofs.Limits.Place
import Mathlib.Tactic.Positivity
import Mathlib.Tactic.Zify

/-!
# What the state of an encoder means

An encoder keeps an index, a sum and a place, and all three move together, when
a component is taken and at no other time. `Carries` says what they mean: the
sum is the rank of the components that were taken, among the vectors that the
bounds so far allow, and the place is the number of those vectors.

Whether the words in the state denote what they should is settled before that.
`AcceptFits` collects the exact numbers that taking a component computes, and
bounds each by the width of the range of codes. They follow from `Carries`
because a rank is below the number of vectors, and the vectors with one more
component are still not more than all of them. The last place reaches their
number exactly, and that one step above the width is why an entry asks for it
to be a word.
-/

namespace KroneckerCode.Encoder

open MixedRadix Limits

variable {s : WordSize} {enc : Encoder s} {taken : List (Word s)}
  {b n : Word s}

/-- The bounds of the components that have been taken. -/
def passed (enc : Encoder s) : List Nat := enc.entry.digitBounds.take enc.index

/-- The encoder has taken these components, in this order. -/
structure Carries (enc : Encoder s) (taken : List (Word s)) : Prop where
  lawful : enc.entry.Lawful
  index_le : enc.index ≤ enc.size
  allowed : MixedRadix.Allows enc.passed (taken.map Word.toInt)
  value_eq : enc.value.toInt = rank enc.passed (taken.map Word.toInt)
  place_eq : enc.place.toInt = enc.entry.placeAt enc.index

/-- The numbers that taking a component computes, none of them reduced. -/
structure AcceptFits (enc : Encoder s) (b n : Word s) : Prop
    extends enc.entry.StepFits enc.place b where
  digit : 0 ≤ n.toInt + b.toInt ∧ n.toInt + b.toInt ≤ enc.entry.delta.toInt
  term : 0 ≤ (n.toInt + b.toInt) * enc.place.toInt ∧
    (n.toInt + b.toInt) * enc.place.toInt ≤ enc.entry.delta.toInt
  value : 0 ≤ enc.value.toInt + (n.toInt + b.toInt) * enc.place.toInt ∧
    enc.value.toInt + (n.toInt + b.toInt) * enc.place.toInt ≤
      enc.entry.delta.toInt

theorem carries_start {entry : Entry s} (h : entry.Lawful) :
    (start entry).Carries [] where
  lawful := h
  index_le := Nat.zero_le _
  allowed := trivial
  value_eq := Word.toInt_zero
  place_eq := Word.toInt_one

theorem Carries.length_taken (h : enc.Carries taken) :
    taken.length = enc.index := by
  have hlen := h.allowed.length_eq
  rw [List.length_map, passed, List.length_take, Entry.length_digitBounds]
    at hlen
  rw [hlen]
  exact Nat.min_eq_left h.index_le

/-! ## One component -/

theorem passed_accept {β : Nat}
    (hβ : enc.entry.digitBounds[enc.index]? = some β) :
    (enc.accept b n).passed = enc.passed ++ [β] := by
  show enc.entry.digitBounds.take (enc.index + 1) = _
  rw [List.take_add_one, hβ]
  rfl

/-- The vectors so far, with one more component, are not too many. -/
theorem Carries.acceptFits (h : enc.Carries taken)
    (hb : enc.entry.bounds[enc.index]? = some b)
    (hn : -b.toInt ≤ n.toInt ∧ n.toInt ≤ b.toInt) :
    enc.AcceptFits b n := by
  obtain ⟨β, hbβ, hβ⟩ := h.lawful.getElem?_digitBounds hb
  obtain ⟨d, hd⟩ : ∃ d : Nat, n.toInt + b.toInt = d :=
    ⟨(n.toInt + b.toInt).toNat, by omega⟩
  have hstep := h.lawful.stepFits hb h.place_eq
  have hbase := hstep.base
  have hdelta := h.lawful.count_eq
  have hle := Entry.placeAt_le_count enc.entry (enc.index + 1)
  -- the rank with this component is below the next place
  have hlt : rank enc.passed (taken.map Word.toInt) +
      d * enc.entry.placeAt enc.index <
        enc.entry.placeAt (enc.index + 1) := by
    have hrank := rank_lt_count (allows_concat h.allowed (hbβ ▸ hn))
    rw [rank_concat β n.toInt h.allowed.length_eq, count_concat,
      show (n.toInt + (β : Int)).toNat = d by omega] at hrank
    rw [Entry.placeAt_succ hβ]
    exact hrank
  zify at hle hlt
  refine { hstep with digit := ?_, term := ?_, value := ?_ }
  · omega
  · rw [hd, h.place_eq]
    exact ⟨by positivity, by omega⟩
  · rw [hd, h.place_eq, h.value_eq]
    exact ⟨by positivity, by omega⟩

theorem AcceptFits.toInt_digit (h : enc.AcceptFits b n)
    (hl : enc.entry.Lawful) : (n + b).toInt = n.toInt + b.toInt := by
  have hd := h.digit
  exact Word.toInt_add_of_holds
    (hl.holds_of_le_delta_succ hd.1 (by omega))

theorem AcceptFits.toInt_term (h : enc.AcceptFits b n)
    (hl : enc.entry.Lawful) :
    ((n + b) * enc.place).toInt =
      (n.toInt + b.toInt) * enc.place.toInt := by
  have ht := h.term
  rw [Word.toInt_mul_of_holds, h.toInt_digit hl]
  rw [h.toInt_digit hl]
  exact hl.holds_of_le_delta_succ ht.1 (by omega)

theorem AcceptFits.toInt_value (h : enc.AcceptFits b n)
    (hl : enc.entry.Lawful) :
    (enc.value + (n + b) * enc.place).toInt =
      enc.value.toInt + (n.toInt + b.toInt) * enc.place.toInt := by
  have hv := h.value
  rw [Word.toInt_add_of_holds, h.toInt_term hl]
  rw [h.toInt_term hl]
  exact hl.holds_of_le_delta_succ hv.1 (by omega)

theorem Carries.accept (h : enc.Carries taken)
    (hb : enc.entry.bounds[enc.index]? = some b)
    (hn : -b.toInt ≤ n.toInt ∧ n.toInt ≤ b.toInt) :
    (enc.accept b n).Carries (taken ++ [n]) := by
  obtain ⟨β, hbβ, hβ⟩ := h.lawful.getElem?_digitBounds hb
  have hvalue : (enc.accept b n).value.toInt = _ :=
    (h.acceptFits hb hn).toInt_value h.lawful
  have hpassed := passed_accept (b := b) (n := n) hβ
  have hbounds : enc.index < enc.entry.bounds.length :=
    (List.getElem?_eq_some_iff.1 hb).1
  refine ⟨h.lawful, hbounds, ?_, ?_,
    h.lawful.toInt_nextPlace hb h.place_eq⟩
  · rw [hpassed, List.map_append]
    exact allows_concat h.allowed (hbβ ▸ hn)
  · rw [hvalue, hpassed, List.map_append, List.map_singleton,
      rank_concat β n.toInt h.allowed.length_eq, h.value_eq, h.place_eq]
    push_cast
    rw [Int.toNat_of_nonneg (by omega), hbβ]
    rfl

/-! ## Calls -/

theorem holds_neg_bound (hl : enc.entry.Lawful)
    (hb : enc.entry.bounds[enc.index]? = some b) : s.Holds (-b.toInt) :=
  b.holds_toInt.neg
    (Int.le_trans (by decide) (hl.one_le_bound b (List.mem_of_getElem? hb)))

theorem push_of_none (hb : enc.entry.bounds[enc.index]? = none)
    (n : Word s) : enc.push n = .error (.tooManyPushes enc.size) := by
  rw [push, hb]

/-- The range check compares exact numbers. -/
theorem out_of_bound_iff (hl : enc.entry.Lawful)
    (hb : enc.entry.bounds[enc.index]? = some b) (n : Word s) :
    n < -b ∨ b < n ↔ ¬(-b.toInt ≤ n.toInt ∧ n.toInt ≤ b.toInt) := by
  rw [Word.lt_iff, Word.lt_iff,
    Word.toInt_neg_of_holds (holds_neg_bound hl hb)]
  omega

theorem push_of_bound (hl : enc.entry.Lawful)
    (hb : enc.entry.bounds[enc.index]? = some b) (n : Word s) :
    enc.push n =
      if -b.toInt ≤ n.toInt ∧ n.toInt ≤ b.toInt then .ok (enc.accept b n)
      else .error (.componentOutOfRange enc.index n.toInt b.toInt) := by
  rw [push, hb]
  simp only [out_of_bound_iff hl hb, ite_not]

/-- The sum of a full encoder is above the least code by the rank of what it
has taken, and so within the range of codes. -/
theorem Carries.holds_code (h : enc.Carries taken) :
    s.Holds (enc.value.toInt + enc.entry.hMin.toInt) := by
  have hlt := rank_lt_count h.allowed
  have hle := Entry.placeAt_le_count enc.entry enc.index
  have hvalue := h.value_eq
  have hlo := h.lawful.hMin_eq
  have hdelta := h.lawful.delta_eq
  have hcount := h.lawful.count_eq
  have hhi := h.lawful.hMax_nonneg
  rw [passed] at hlt hvalue
  rw [Entry.placeAt] at hle
  exact h.lawful.holds (by omega) (by omega)

/-- An encoder that lacks no component has passed every bound. -/
theorem passed_of_full (hfull : enc.index = enc.size) :
    enc.passed = enc.entry.digitBounds := by
  rw [passed, hfull]
  exact List.take_of_length_le (Nat.le_of_eq (Entry.length_digitBounds _))

/-- An encoder that lacks no component has the code of those it has taken. -/
theorem Carries.get_eq (h : enc.Carries taken) (hfull : enc.index = enc.size) :
    ∃ code, enc.get = .ok code ∧
      code.toInt = rank enc.entry.digitBounds (taken.map Word.toInt) +
        enc.entry.hMin.toInt := by
  refine ⟨enc.value + enc.entry.hMin, ?_, ?_⟩
  · rw [get, if_neg (by omega)]
  · rw [Word.toInt_add_of_holds h.holds_code, h.value_eq, passed_of_full hfull]

end KroneckerCode.Encoder

import KroneckerCode.Proofs.Decoder.Batch
import KroneckerCode.Proofs.Decoder.Session
import KroneckerCode.Proofs.Encoder.Batch
import KroneckerCode.Proofs.Encoder.Session

/-!
# The coders never overflow

Words wrap around and give no notice of it. Here every operation of the coders
is written once more, in the same order, in arithmetic that refuses a result
which no word holds. In no state that a coder can reach is anything refused, so
a machine that stops at an overflow and one that does not run alike.

Along with it stands what the results are. Digits, terms, sums and remainders
lie between zero and the width of the range of codes. Places and bases are
positive and at most one above the width, which is the number of codes. The
place behind the last component does reach that number, and a table without
room for it would not be enough.
-/

namespace KroneckerCode

open Limits

variable {s : WordSize}

namespace Limits.Entry

variable {e : Entry s} {place b : Word s}

/-- The worth of the next place, if no step to it overflows. -/
def nextPlace? (place b : Word s) : Option (Word s) := do
  let double ← b.add? b
  let base ← double.add? 1
  place.mul? base

theorem StepFits.nextPlace?_eq (h : e.StepFits place b) (hl : e.Lawful) :
    nextPlace? place b = some (place * (b + b + 1)) := by
  have hdouble := Word.add?_eq_iff.2 (h.toInt_double hl)
  have hbase : (b + b).add? 1 = some (b + b + 1) := by
    rw [Word.add?_eq_iff, h.toInt_base hl, h.toInt_double hl, Word.toInt_one]
  have hnext : place.mul? (b + b + 1) = some (place * (b + b + 1)) := by
    rw [Word.mul?_eq_iff, h.toInt_next hl, h.toInt_base hl]
  simp only [nextPlace?, hdouble, hbase, hnext, Option.bind_eq_bind,
    Option.bind_some]

end Limits.Entry

/-! ## The encoder -/

namespace Encoder

variable {enc : Encoder s} {taken : List (Word s)} {b n : Word s}

/-- Takes a component that is in bounds, if no step overflows. -/
def accept? (enc : Encoder s) (bound n : Word s) : Option (Encoder s) := do
  let digit ← n.add? bound
  let term ← digit.mul? enc.place
  let value ← enc.value.add? term
  let place ← Entry.nextPlace? enc.place bound
  return { enc with index := enc.index + 1, value, place }

/-- Offers a component, if no step overflows. -/
def push? (enc : Encoder s) (n : Word s) :
    Option (Except CodecError (Encoder s)) :=
  match enc.entry.bounds[enc.index]? with
  | none => some (.error (.tooManyPushes enc.size))
  | some bound => do
    let least ← bound.neg?
    if n < least ∨ bound < n then
      return .error (.componentOutOfRange enc.index n.toInt bound.toInt)
    else
      return .ok (← enc.accept? bound n)

/-- Asks for the code, if no step overflows. -/
def get? (enc : Encoder s) : Option (Except CodecError (Word s)) :=
  if enc.index < enc.size then
    some (.error (.notEnoughPushes enc.index enc.size))
  else
    (enc.value.add? enc.entry.hMin).map .ok

/-- What the next call on an encoder computes, whichever it is, is exact. -/
structure Exact (enc : Encoder s) : Prop where
  count : enc.entry.delta.toInt + 1 ≤ s.maxValue
  least : ∀ b, enc.entry.bounds[enc.index]? = some b → s.Holds (-b.toInt)
  accept : ∀ b n, enc.entry.bounds[enc.index]? = some b →
    ¬(n < -b ∨ b < n) → enc.AcceptFits b n
  code : s.Holds (enc.value.toInt + enc.entry.hMin.toInt)
  push?_eq : ∀ n, enc.push? n = some (enc.push n)
  get?_eq : enc.get? = some enc.get

theorem AcceptFits.accept?_eq (h : enc.AcceptFits b n)
    (hl : enc.entry.Lawful) :
    enc.accept? b n = some (enc.accept b n) := by
  have hdigit := Word.add?_eq_iff.2 (h.toInt_digit hl)
  have hterm : (n + b).mul? enc.place = some ((n + b) * enc.place) := by
    rw [Word.mul?_eq_iff, h.toInt_term hl, h.toInt_digit hl]
  have hvalue : enc.value.add? ((n + b) * enc.place) =
      some (enc.value + (n + b) * enc.place) := by
    rw [Word.add?_eq_iff, h.toInt_value hl, h.toInt_term hl]
  have hplace := h.toStepFits.nextPlace?_eq hl
  simp only [accept?, hdigit, hterm, hvalue, hplace, Option.bind_eq_bind,
    Option.bind_some]
  rfl

theorem Carries.push?_eq (h : enc.Carries taken) (n : Word s) :
    enc.push? n = some (enc.push n) := by
  cases hb : enc.entry.bounds[enc.index]? with
  | none =>
      rw [push?, push_of_none hb, hb]
  | some b =>
      have hneg := Word.toInt_neg_of_holds (holds_neg_bound h.lawful hb)
      simp only [push?, push, hb, Word.neg?_eq_iff.2 hneg,
        Option.bind_eq_bind, Option.bind_some]
      split
      · rfl
      · next hn =>
          rw [out_of_bound_iff h.lawful hb, not_not] at hn
          rw [(h.acceptFits hb hn).accept?_eq h.lawful]
          rfl

theorem Carries.get?_eq (h : enc.Carries taken) :
    enc.get? = some enc.get := by
  rw [get?, get]
  split
  · rfl
  · rw [Word.add?_eq_iff.2 (Word.toInt_add_of_holds h.holds_code)]
    rfl

theorem Carries.exact (h : enc.Carries taken) : enc.Exact where
  count := h.lawful.delta_succ_le
  least b hb := holds_neg_bound h.lawful hb
  accept b n hb hn := by
    rw [out_of_bound_iff h.lawful hb, not_not] at hn
    exact h.acceptFits hb hn
  code := h.holds_code
  push?_eq := h.push?_eq
  get?_eq := h.get?_eq

end Encoder

/-! ## The decoder -/

namespace Decoder

variable {dec : Decoder s} {x : Nat} {b : Word s}

/-- A decoder that has given nothing, if the shift does not overflow. -/
def start? (entry : Entry s) (code : Word s) : Option (Decoder s) := do
  let shifted ← code.sub? entry.hMin
  return { entry, index := 0, code := shifted, place := 1 }

/-- Gives the next component, if no step overflows. -/
def pull? (dec : Decoder s) :
    Option (Except CodecError (Word s × Decoder s)) :=
  match dec.entry.bounds[dec.index]? with
  | none => some (.error (.tooManyPulls dec.size))
  | some bound => do
    let next ← Entry.nextPlace? dec.place bound
    let rest ← dec.code.mod? next
    let digit ← rest.div? dec.place
    let component ← digit.sub? bound
    return .ok
      (component, { dec with index := dec.index + 1, place := next })

/-- What the next pull computes is exact. -/
structure Exact (dec : Decoder s) : Prop where
  count : dec.entry.delta.toInt + 1 ≤ s.maxValue
  pull : ∀ b, dec.entry.bounds[dec.index]? = some b → dec.PullFits b
  pull?_eq : dec.pull? = some dec.pull

theorem Splits.pull?_eq (h : dec.Splits x) : dec.pull? = some dec.pull := by
  cases hb : dec.entry.bounds[dec.index]? with
  | none =>
      rw [pull?, pull_of_none hb, hb]
  | some b =>
      have hnext : Entry.nextPlace? dec.place b = some (dec.nextPlace b) :=
        (h.pullFits hb).toStepFits.nextPlace?_eq h.lawful
      have hrest : dec.code.mod? (dec.nextPlace b) =
          some (dec.code % dec.nextPlace b) :=
        Word.mod?_of_nat h.code_eq (h.toInt_nextPlace hb)
          (Entry.placeAt_pos _ _)
      have hdigit : (dec.code % dec.nextPlace b).div? dec.place =
          some (dec.code % dec.nextPlace b / dec.place) :=
        Word.div?_of_nat (h.toInt_rest hb) h.place_eq (Entry.placeAt_pos _ _)
      have hcomponent : (dec.code % dec.nextPlace b / dec.place).sub? b =
          some (dec.component b) := by
        refine Word.sub?_eq_iff.2 ?_
        rw [h.toInt_digit hb]
        exact h.toInt_component hb
      simp only [pull?, hb, hnext, hrest, hdigit, hcomponent,
        Option.bind_eq_bind, Option.bind_some]
      rw [pull_of_bound hb]
      rfl

theorem Splits.exact (h : dec.Splits x) : dec.Exact where
  count := h.lawful.delta_succ_le
  pull _ hb := h.pullFits hb
  pull?_eq := h.pull?_eq

theorem start?_eq {entry : Entry s} {code : Word s} (hl : entry.Lawful)
    (hc : entry.Contains code) :
    start? entry code = some (start entry code) := by
  have hlo := Word.le_iff.1 hc.1
  have hcode : (code - entry.hMin).toInt = _ :=
    (splits_start hl hc).code_eq
  rw [start?, Word.sub?_eq_iff.2 (by omega)]
  rfl

end Decoder

/-! ## Every run -/

/-- Nothing is refused or reduced in any state of an encoder or decoder. -/
theorem coders_never_overflow (s : WordSize) {size : Nat}
    (hsize : size ≤ (standard s).maxDimension) :
    (∃ enc, Encoder.ofSize s size = .ok enc ∧
      ∀ calls, (enc.after calls).Exact) ∧
    ∀ (code : Word s) (dec : Decoder s), Decoder.ofCode code size = .ok dec →
      (0 ≤ code.toInt - dec.entry.hMin.toInt ∧
        code.toInt - dec.entry.hMin.toInt ≤ dec.entry.delta.toInt ∧
        Decoder.start? dec.entry code = some dec) ∧
      ∀ calls, (dec.after calls).Exact := by
  obtain ⟨e, he⟩ := get?_standard_of_le hsize
  obtain ⟨_, hlawful⟩ := lawful_standard s size e he
  refine ⟨⟨Encoder.start e, Encoder.ofSize_eq he, fun calls => ?_⟩,
    fun code dec hdec => ?_⟩
  · obtain ⟨_, _, hcarries⟩ := (Encoder.carries_start hlawful).after calls
    exact hcarries.exact
  · obtain ⟨hc, rfl⟩ := (Decoder.ofCode_eq_ok_iff he).1 hdec
    have hsplits := Decoder.splits_start hlawful hc
    have hlo := Word.le_iff.1 hc.1
    have hhi := Word.le_iff.1 hc.2
    have hdelta := hlawful.delta_eq
    refine ⟨⟨?_, ?_, Decoder.start?_eq hlawful hc⟩, fun calls =>
      (hsplits.after calls).2.exact⟩
    · show 0 ≤ code.toInt - e.hMin.toInt
      omega
    · show code.toInt - e.hMin.toInt ≤ e.delta.toInt
      omega

/-- Bytes code four components, and zero is one of the codes. -/
theorem coders_never_overflow_four_bytes :
    4 ≤ (standard .w8).maxDimension ∧
    (∃ enc, Encoder.ofSize .w8 4 = .ok enc ∧
      (enc.after [.push 1, .get, .push 127]).Exact) ∧
    ∃ dec, Decoder.ofCode (0 : Word .w8) 4 = .ok dec ∧
      (dec.after [.pull, .nth 1]).Exact := by
  have hsize : 4 ≤ (standard .w8).maxDimension :=
    Nat.le_of_eq maxDimension_standard_w8.symm
  obtain ⟨⟨enc, henc, hexact⟩, hdecoder⟩ := coders_never_overflow .w8 hsize
  obtain ⟨e, he⟩ := get?_standard_of_le hsize
  have hdec := Decoder.ofCode_of_contains he
    (lawful_standard .w8 4 e he).2.contains_zero
  exact ⟨hsize, ⟨enc, henc, hexact _⟩, _, hdec, (hdecoder 0 _ hdec).2 _⟩

end KroneckerCode

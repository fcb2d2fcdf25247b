import KroneckerCode.Decoder.Basic
import KroneckerCode.Proofs.Limits.Place

/-!
# What the state of a decoder means

A decoder never changes the shifted code it was made with. `Splits` says what
that code is: a position among the vectors that the bounds allow. The place is
the number of vectors that the components given so far can form, and the next
component is read off the position at that place, so the decoder gives the
components of the vector at its position, one after the other
(`Splits.component_eq`), and cannot lose its way.

As with the encoder, `PullFits` settles first that no word in this is reduced:
the next place divides the number of all vectors, remainder and quotient are not
above what is divided, and the digit is below its base.
-/

namespace KroneckerCode.Decoder

open MixedRadix Limits

variable {s : WordSize} {dec : Decoder s} {x : Nat} {b : Word s}

/-- The decoder gives the components of the vector at position `x`. -/
structure Splits (dec : Decoder s) (x : Nat) : Prop where
  lawful : dec.entry.Lawful
  index_le : dec.index ≤ dec.size
  lt_count : x < count dec.entry.digitBounds
  code_eq : dec.code.toInt = x
  place_eq : dec.place.toInt = dec.entry.placeAt dec.index

/-- The place behind a component with the given bound. -/
def nextPlace (dec : Decoder s) (b : Word s) : Word s := dec.place * (b + b + 1)

/-- The component that the place and the next one cut out of the code. -/
def component (dec : Decoder s) (b : Word s) : Word s :=
  dec.code % dec.nextPlace b / dec.place - b

/-- The decoder behind a component with the given bound. -/
def advance (dec : Decoder s) (b : Word s) : Decoder s :=
  { dec with index := dec.index + 1, place := dec.nextPlace b }

/-- The exact remainder below the next place. -/
def exactRest (dec : Decoder s) (b : Word s) : Int :=
  dec.code.toInt.tmod (dec.place.toInt * (b.toInt + b.toInt + 1))

/-- The numbers that giving a component computes, none of them reduced. -/
structure PullFits (dec : Decoder s) (b : Word s) : Prop
    extends dec.entry.StepFits dec.place b where
  place : 1 ≤ dec.place.toInt
  rest : 0 ≤ dec.exactRest b ∧ dec.exactRest b ≤ dec.entry.delta.toInt
  digit : 0 ≤ (dec.exactRest b).tdiv dec.place.toInt ∧
    (dec.exactRest b).tdiv dec.place.toInt ≤ b.toInt + b.toInt
  component : -b.toInt ≤ (dec.exactRest b).tdiv dec.place.toInt - b.toInt ∧
    (dec.exactRest b).tdiv dec.place.toInt - b.toInt ≤ b.toInt

theorem splits_start {entry : Entry s} {code : Word s} (h : entry.Lawful)
    (hc : entry.Contains code) :
    (start entry code).Splits (code.toInt - entry.hMin.toInt).toNat := by
  have hlo := Word.le_iff.1 hc.1
  have hhi := Word.le_iff.1 hc.2
  have hdelta := h.delta_eq
  have hcount := h.count_eq
  refine ⟨h, Nat.zero_le _, ?_, ?_, Word.toInt_one⟩
  · show _ < count entry.digitBounds
    omega
  · show (code - entry.hMin).toInt = _
    rw [Word.toInt_sub_of_holds]
    · omega
    · exact h.holds_of_le_delta_succ (by omega) (by omega)

/-! ## One component -/

/-- The remainder below the next place, and the digit it starts with. -/
theorem Splits.exactRest_eq (h : dec.Splits x)
    (hb : dec.entry.bounds[dec.index]? = some b) :
    dec.exactRest b = (x % dec.entry.placeAt (dec.index + 1) : Nat) := by
  have hnext := (h.lawful.stepFits hb h.place_eq).toInt_next h.lawful
  rw [exactRest, ← hnext, h.lawful.toInt_nextPlace hb h.place_eq, h.code_eq,
    Int.ofNat_tmod]

theorem Splits.exactDigit_eq (h : dec.Splits x)
    (hb : dec.entry.bounds[dec.index]? = some b) {β : Nat}
    (hβ : dec.entry.digitBounds[dec.index]? = some β) :
    (dec.exactRest b).tdiv dec.place.toInt =
      (x / dec.entry.placeAt dec.index % base β : Nat) := by
  rw [h.exactRest_eq hb, h.place_eq, ← Int.ofNat_tdiv, Entry.placeAt_succ hβ,
    Nat.mod_mul_right_div_self]

theorem Splits.pullFits (h : dec.Splits x)
    (hb : dec.entry.bounds[dec.index]? = some b) : dec.PullFits b := by
  obtain ⟨β, hbβ, hβ⟩ := h.lawful.getElem?_digitBounds hb
  have hplace := Entry.placeAt_pos dec.entry dec.index
  have hrest : x % dec.entry.placeAt (dec.index + 1) ≤ x := Nat.mod_le _ _
  have hdigit := Nat.mod_lt (x / dec.entry.placeAt dec.index) (base_pos β)
  have hx := h.lt_count
  have hcount := h.lawful.count_eq
  have hbase : base β = 2 * β + 1 := rfl
  refine { h.lawful.stepFits hb h.place_eq with
    place := ?_, rest := ?_, digit := ?_, component := ?_ }
  · rw [h.place_eq]
    omega
  · rw [h.exactRest_eq hb]
    omega
  · rw [h.exactDigit_eq hb hβ]
    omega
  · rw [h.exactDigit_eq hb hβ]
    omega

theorem Splits.toInt_nextPlace (h : dec.Splits x)
    (hb : dec.entry.bounds[dec.index]? = some b) :
    (dec.nextPlace b).toInt = dec.entry.placeAt (dec.index + 1) :=
  h.lawful.toInt_nextPlace hb h.place_eq

theorem Splits.toInt_rest (h : dec.Splits x)
    (hb : dec.entry.bounds[dec.index]? = some b) :
    (dec.code % dec.nextPlace b).toInt =
      (x % dec.entry.placeAt (dec.index + 1) : Nat) :=
  Word.toInt_mod_of_nat h.code_eq (h.toInt_nextPlace hb)

theorem Splits.toInt_digit (h : dec.Splits x)
    (hb : dec.entry.bounds[dec.index]? = some b) :
    (dec.code % dec.nextPlace b / dec.place).toInt =
      (dec.exactRest b).tdiv dec.place.toInt := by
  rw [Word.toInt_div_of_nat (h.toInt_rest hb) h.place_eq, h.exactRest_eq hb,
    h.place_eq, Int.ofNat_tdiv]

theorem Splits.toInt_component (h : dec.Splits x)
    (hb : dec.entry.bounds[dec.index]? = some b) :
    (dec.component b).toInt =
      (dec.exactRest b).tdiv dec.place.toInt - b.toInt := by
  have hfits := (h.pullFits hb).component
  rw [component, Word.toInt_sub_of_holds, h.toInt_digit hb]
  rw [h.toInt_digit hb]
  exact b.holds_toInt.of_abs_le hfits.1 hfits.2

/-- One step of a decoder. The position does not change. -/
theorem Splits.advance (h : dec.Splits x)
    (hb : dec.entry.bounds[dec.index]? = some b) :
    (dec.advance b).Splits x where
  lawful := h.lawful
  index_le := (List.getElem?_eq_some_iff.1 hb).1
  lt_count := h.lt_count
  code_eq := h.code_eq
  place_eq := h.toInt_nextPlace hb

theorem Splits.component_eq (h : dec.Splits x)
    (hb : dec.entry.bounds[dec.index]? = some b) :
    (unrank dec.entry.digitBounds x)[dec.index]? =
      some (dec.component b).toInt := by
  obtain ⟨β, hbβ, hβ⟩ := h.lawful.getElem?_digitBounds hb
  obtain ⟨hi, hget⟩ := List.getElem?_eq_some_iff.1 hβ
  have hdrop := unrank_drop dec.entry.digitBounds x dec.index
  rw [List.drop_eq_getElem_cons hi, hget, unrank] at hdrop
  rw [← List.head?_drop, ← hdrop, List.head?_cons, h.toInt_component hb,
    h.exactDigit_eq hb hβ, hbβ, Entry.placeAt]

/-! ## Calls -/

theorem pull_of_none (hb : dec.entry.bounds[dec.index]? = none) :
    dec.pull = .error (.tooManyPulls dec.size) := by
  rw [pull, hb]

theorem pull_of_bound (hb : dec.entry.bounds[dec.index]? = some b) :
    dec.pull = .ok (dec.component b, dec.advance b) := by
  rw [pull, hb]
  rfl

end KroneckerCode.Decoder

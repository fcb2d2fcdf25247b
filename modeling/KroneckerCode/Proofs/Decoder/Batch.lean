import KroneckerCode.Decoder.Batch
import KroneckerCode.Proofs.Decoder.Position
import KroneckerCode.Proofs.Limits.Table

/-!
# Decoding into a vector of words

Decoding is a run of pulls, and a decoder that has not lost its way gives the
components of the vector at its position until there are none left. What
decides whether there is a decoder at all is the code: for every dimension of
the table a code is accepted exactly if it is within the range of its entry.
Dimension zero has its own error, but no rule of its own, since the range of the
empty entry is zero alone.
-/

namespace KroneckerCode

open MixedRadix Limits

variable {s : WordSize} {size : Nat} {code : Word s} {e : Entry s}

namespace Decoder

variable {dec : Decoder s}

/-! ## Which codes are accepted -/

/-- The error of a word that is no code of its dimension. -/
def refusal (e : Entry s) (size : Nat) (code : Word s) : CodecError :=
  if size = 0 then .invalidZeroSizeCode code.toInt
  else .codeOutOfRange code.toInt size e.hMin.toInt e.hMax.toInt

/-- Zero is the only code of dimension zero. -/
theorem contains_iff_of_zero (he : (standard s).get? 0 = some e)
    (code : Word s) : e.Contains code ↔ code = 0 := by
  rw [get?_standard_zero, Option.some.injEq] at he
  rw [← he, Entry.Contains, Word.le_iff, Word.le_iff, ← Word.toInt_inj]
  show (0 : Word s).toInt ≤ _ ∧ _ ≤ (0 : Word s).toInt ↔ _
  omega

theorem checkCode_eq (he : (standard s).get? size = some e)
    (code : Word s) :
    checkCode e size code =
      if e.Contains code then .ok () else .error (refusal e size code) := by
  rw [checkCode, refusal]
  split
  · next hsize =>
      subst hsize
      simp only [contains_iff_of_zero he]
  · rfl

theorem ofCode_eq (he : (standard s).get? size = some e) :
    ofCode code size =
      (checkCode e size code).map fun _ => start e code := by
  rw [ofCode, Table.entry_eq_ok_iff.2 he]
  show (checkCode e size code >>= fun _ => pure _) = _
  cases checkCode e size code with
  | error err => rfl
  | ok => rfl

theorem ofCode_eq_ok_iff (he : (standard s).get? size = some e) :
    ofCode code size = .ok dec ↔ e.Contains code ∧ dec = start e code := by
  rw [ofCode_eq he, checkCode_eq he]
  split
  · next hc =>
      rw [Except.map, Except.ok.injEq, eq_comm]
      exact (and_iff_right hc).symm
  · next hc => exact iff_of_false (fun h => by cases h) fun h => hc h.1

theorem ofCode_of_contains (he : (standard s).get? size = some e)
    (hc : e.Contains code) : ofCode code size = .ok (start e code) :=
  (ofCode_eq_ok_iff he).2 ⟨hc, rfl⟩

/-- A decoder is only ever made for a code of its dimension. -/
theorem exists_entry_of_ofCode (h : ofCode code size = .ok dec) :
    ∃ e, (standard s).get? size = some e ∧ e.Contains code ∧
      dec = start e code := by
  cases he : (standard s).get? size with
  | none =>
      rw [ofCode, Table.entry, he] at h
      cases h
  | some e =>
      obtain ⟨hc, hdec⟩ := (ofCode_eq_ok_iff he).1 h
      exact ⟨e, rfl, hc, hdec⟩

/-- A decoder that has given nothing is in front of the first component. -/
theorem Splits.seek_zero {x : Nat} (h : (start e code).Splits x) :
    (start e code).seek 0 = start e code := h.seek_index

end Decoder

/-! ## Decoding -/

theorem decode_of_lt (h : (standard s).maxDimension < size) :
    decode code size =
      .error (.dimensionTooLarge size (standard s).maxDimension s.name) := by
  rw [decode, Decoder.ofCode, Table.entry, get?_standard_of_lt h]
  rfl

theorem decode_of_not_contains (he : (standard s).get? size = some e)
    (hc : ¬ e.Contains code) :
    decode code size = .error (Decoder.refusal e size code) := by
  rw [decode, Decoder.ofCode_eq he, Decoder.checkCode_eq he, if_neg hc]
  rfl

theorem decode_of_gives {v : List (Word s)}
    (he : (standard s).get? size = some e) (hc : e.Contains code)
    (h : (Decoder.start e code).Gives v) : decode code size = .ok v := by
  obtain ⟨x, hsplits, _⟩ := id h
  have hall := h.takeAll_seek (Nat.zero_le _)
  rw [hsplits.seek_zero, List.drop_zero] at hall
  rw [decode, Decoder.ofCode_of_contains he hc, Except.map, hall]

/-- The vector of a code is the one at its position in the range of codes. -/
theorem decode_of_contains (he : (standard s).get? size = some e)
    (hc : e.Contains code) :
    ∃ v, decode code size = .ok v ∧ e.Allows v ∧
      v.map Word.toInt =
        unrank e.digitBounds (code.toInt - e.hMin.toInt).toNat := by
  obtain ⟨_, hlawful⟩ := lawful_standard s _ e he
  obtain ⟨v, hgives, hmap⟩ :=
    (Decoder.splits_start hlawful hc).exists_gives
  refine ⟨v, decode_of_gives he hc hgives, ?_, hmap⟩
  rw [hlawful.allows_iff, hmap]
  exact allows_unrank _ _

end KroneckerCode

import KroneckerCode.Proofs.Cast.Conversion
import KroneckerCode.Proofs.ElementRoundTrip

/-!
# Codes are decoded into elements or not at all

A code is refused for what it is, before there is a component, or for the first
component that the element type has no element for. Which one that is depends on
the components alone, and what is answered for it is the refusal of its own
conversion (`castList_eq_error_iff`). The components behind it do not matter, and
a decoder that converts what it pulls before it pulls again ends in the same way
(`castPulled_eq`).

Nothing of this is seen in the slots. They are all written, with a vector that is
as long as they are many, or they are left alone (`decodeInto_eq_ok_iff`,
`decodeInto_eq_error_iff`).
-/

namespace KroneckerCode

open Limits

variable {s : WordSize} {e : ElementType} {w : Word s} {ws : List (Word s)}
  {xs slots : List (Element e)} {source : CastError} {err : CodecError}
  {code : Word s} {m : Nat}

/-! ## Components that are refused -/

/-- A word is converted exactly if the type has an element for it. -/
theorem Cast.exists_ofWord_iff :
    (∃ x, ofWord w e = .ok x) ↔ e.Represents w.toInt := by
  have hnumber : ∀ q, Element.number? (.int (.signed s)) w.toRanged = some q ↔
      (w.toInt : ℚ) = q := fun q => by simp [Element.number?, Word.toRanged]
  refine Iff.trans (Pair.exists_convert_iff (.out (.signed s) e)) ?_
  simp [hnumber]

theorem Cast.exists_ofWord_error_iff :
    (∃ source, ofWord w e = .error source) ↔ ¬ e.Represents w.toInt := by
  rw [← Cast.exists_ofWord_iff]
  cases ofWord w e <;> simp

/-- At position `i` stands the first word that the type has no element for, and
`source` is what its conversion answers. -/
structure FirstUnrepresentable (e : ElementType) (ws : List (Word s)) (i : Nat)
    (source : CastError) : Prop where
  before : ∀ w ∈ ws.take i, e.Represents w.toInt
  refused : ∃ w, ws[i]? = some w ∧ ¬ e.Represents w.toInt ∧
    Cast.ofWord w e = .error source

namespace FirstUnrepresentable

theorem not_nil {i : Nat} :
    ¬ FirstUnrepresentable e ([] : List (Word s)) i source := by
  intro h
  obtain ⟨w, hw, _⟩ := h.refused
  simp at hw

theorem head_iff :
    FirstUnrepresentable e (w :: ws) 0 source ↔
      Cast.ofWord w e = .error source := by
  constructor
  · intro h
    obtain ⟨w', hw, _, hcast⟩ := h.refused
    simp at hw
    rw [hw, hcast]
  · intro h
    exact ⟨by simp, w, rfl, Cast.exists_ofWord_error_iff.1 ⟨source, h⟩, h⟩

theorem tail_iff {i : Nat} :
    FirstUnrepresentable e (w :: ws) (i + 1) source ↔
      e.Represents w.toInt ∧ FirstUnrepresentable e ws i source := by
  constructor
  · intro h
    have hbefore := h.before
    simp at hbefore
    exact ⟨hbefore.1, by simpa using hbefore.2, h.refused⟩
  · intro ⟨hw, h⟩
    have hbefore := h.before
    exact ⟨by simpa [hw] using hbefore, h.refused⟩

end FirstUnrepresentable

namespace Decoder

/-- A list is refused for its first word without an element. -/
theorem castList_eq_error_iff {index : Nat} :
    castList e index ws = .error err ↔
      ∃ i source, FirstUnrepresentable e ws i source ∧
        .componentCastFailure (index + i) source = err := by
  induction ws generalizing index with
  | nil => simp [castList, FirstUnrepresentable.not_nil]
  | cons w ws ih =>
      have htail : ∀ i, index + 1 + i = index + (i + 1) := fun i => by omega
      -- the first word is refused, or it is converted and a later one is refused
      rw [castList, bind_eq_error_iff, ← Nat.or_exists_add_one]
      simp [mapError_eq_error_iff, mapError_eq_ok_iff, bind_eq_error_iff, ih,
        FirstUnrepresentable.head_iff, FirstUnrepresentable.tail_iff, htail,
        ← Cast.exists_ofWord_iff, and_assoc, pure, Except.pure]

theorem exists_castList_iff (index : Nat) :
    (∃ xs, castList e index ws = .ok xs) ↔
      ∀ w ∈ ws, e.Represents w.toInt := by
  induction ws generalizing index with
  | nil => simp [castList]
  | cons w ws ih =>
      rw [castList, List.forall_mem_cons, ← Cast.exists_ofWord_iff,
        ← ih (index + 1)]
      simp [bind_eq_ok_iff, mapError_eq_ok_iff, pure, Except.pure]

/-! ## Pulling and converting in turns -/

/-- Pulls components and converts each of them before it pulls the next. -/
def castPulled (e : ElementType) :
    (left : Nat) → Decoder s → Except CodecError (List (Element e))
  | 0, _ => .ok []
  | left + 1, dec =>
    match dec.next? with
    | some (w, next) => do
      let x ← (Cast.ofWord w e).mapError (.componentCastFailure dec.index)
      let xs ← castPulled e left next
      return x :: xs
    | none => .ok []

theorem index_of_next? {dec next : Decoder s} (h : dec.next? = some (w, next)) :
    next.index = dec.index + 1 := by
  cases hb : dec.entry.bounds[dec.index]? with
  | none =>
      rw [next?, pull_of_none hb] at h
      cases h
  | some b =>
      rw [next?, pull_of_bound hb] at h
      cases h
      rfl

/-- The components are the same whether they are converted in turns or later. -/
theorem castPulled_eq (n : Nat) (dec : Decoder s) :
    castPulled e n dec = castList e dec.index (dec.take n).1 := by
  induction n generalizing dec with
  | zero => rfl
  | succ n ih =>
      rw [castPulled, take]
      cases hnext : dec.next? with
      | none => rfl
      | some pulled =>
          obtain ⟨w, next⟩ := pulled
          simp only [castList, ih, index_of_next? hnext]

/-! ## Slots -/

theorem overwrite_eq {α : Type} {slots values : List α}
    (h : values.length = slots.length) : overwrite slots values = values := by
  induction slots generalizing values with
  | nil =>
      rw [List.length_nil, List.length_eq_zero_iff] at h
      rw [h]
      rfl
  | cons slot slots ih =>
      cases values with
      | nil => simp at h
      | cons v values =>
          rw [overwrite, ih (by simpa using h)]

end Decoder

/-! ## Whole vectors -/

theorem decodeAs_eq_castPulled :
    decodeAs e code m = (Decoder.ofCode code m).bind fun dec =>
      Decoder.castPulled e dec.remaining dec := by
  rw [decodeAs, decode]
  cases hdec : Decoder.ofCode code m with
  | error err => rfl
  | ok dec =>
      obtain ⟨entry, _, _, rfl⟩ := Decoder.exists_entry_of_ofCode hdec
      exact (Decoder.castPulled_eq _ (Decoder.start entry code)).symm

theorem decodeAs_eq_error_iff :
    decodeAs e code m = .error err ↔
      decode code m = .error err ∨
      ∃ ws i source, decode code m = .ok ws ∧
        FirstUnrepresentable e ws i source ∧
        .componentCastFailure i source = err := by
  rw [decodeAs, bind_eq_error_iff]
  simp [Decoder.castList_eq_error_iff]

theorem exists_decodeAs_iff :
    (∃ xs, decodeAs e code m = .ok xs) ↔
      ∃ ws, decode code m = .ok ws ∧ ∀ w ∈ ws, e.Represents w.toInt := by
  simp only [decodeAs, bind_eq_ok_iff]
  rw [exists_comm]
  simp only [exists_and_left, Decoder.exists_castList_iff]

/-- Where there is a vector, it has as many elements as there are slots. -/
theorem decodeInto_eq_ok_iff {after : List (Element e)} :
    decodeInto e code slots = (.ok (), after) ↔
      decodeAs e code slots.length = .ok after := by
  rw [decodeInto]
  cases h : decodeAs e code slots.length with
  | error err => simp
  | ok values =>
      have hlen := (encode_of_decodeAs h).1
      simp [Decoder.overwrite_eq hlen]

theorem decodeInto_eq_error_iff {after : List (Element e)} :
    decodeInto e code slots = (.error err, after) ↔
      decodeAs e code slots.length = .error err ∧ after = slots := by
  rw [decodeInto]
  cases decodeAs e code slots.length <;> simp [eq_comm]

/-- A code is decoded into elements as into words. It is refused for the same
reason, or for the first word of its vector that the type has no element for, and
with the refusal of that word's conversion. If there is none, the elements are
the words converted, in order. The slots have all of them afterwards, however
many they are and whatever was in them, and after a refusal they are what they
were before. To convert each component before the next is pulled makes no
difference. -/
theorem elements_decoded_or_refused (e : ElementType) (code : Word s)
    (m : Nat) :
    (∀ err, decodeAs e code m = .error err ↔
      decode code m = .error err ∨
      ∃ ws i source, decode code m = .ok ws ∧
        FirstUnrepresentable e ws i source ∧
        .componentCastFailure i source = err) ∧
    ((∃ xs, decodeAs e code m = .ok xs) ↔
      ∃ ws, decode code m = .ok ws ∧ ∀ w ∈ ws, e.Represents w.toInt) ∧
    (∀ xs, decodeAs e code m = .ok xs ↔
      ∃ ws, decode code m = .ok ws ∧
        List.Forall₂ (fun w x => Cast.ofWord w e = .ok x) ws xs) ∧
    (∀ slots : List (Element e), slots.length = m → ∀ after,
      (decodeInto e code slots = (.ok (), after) ↔
        decodeAs e code m = .ok after) ∧
      ∀ err, decodeInto e code slots = (.error err, after) ↔
        decodeAs e code m = .error err ∧ after = slots) ∧
    decodeAs e code m = (Decoder.ofCode code m).bind fun dec =>
      Decoder.castPulled e dec.remaining dec := by
  refine ⟨fun _ => decodeAs_eq_error_iff, exists_decodeAs_iff,
    fun _ => decodeAs_eq_ok_iff, ?_, decodeAs_eq_castPulled⟩
  intro slots hlen after
  subst hlen
  exact ⟨decodeInto_eq_ok_iff, fun _ => decodeInto_eq_error_iff⟩

/-- Bytes without a sign have no element for the third of these components. The
two in front of it have been converted by then, and no slot is written. As
floating-point numbers all four are written. -/
theorem elements_decoded_or_refused_four_bytes :
    ∃ code : Word .w8, decode code 4 = .ok [0, 1, -1, 0] ∧
      decodeInto (.int (.unsigned .w8)) code
          (List.replicate 4 ⟨7, by decide⟩) =
        (.error (.componentCastFailure 2 ⟨"-1", "u8"⟩),
          List.replicate 4 ⟨7, by decide⟩) ∧
      decodeInto (.float .binary32) code
          (List.replicate 4 (Binary.zero .binary32)) =
        (.ok (), [Binary.zero .binary32, Binary.ofInt .binary32 1,
          Binary.ofInt .binary32 (-1), Binary.zero .binary32]) := by
  have hm : 4 ≤ (standard .w8).maxDimension :=
    Nat.le_of_eq maxDimension_standard_w8.symm
  obtain ⟨entry, he⟩ := get?_standard_of_le hm
  obtain ⟨hdim, hlawful⟩ := lawful_standard .w8 4 entry he
  have ha : entry.Allows [0, 1, -1, 0] :=
    hlawful.allows_of_abs_le_one hdim.symm (by decide)
  obtain ⟨code, _, _, hdecode⟩ := decode_of_encode he ha
  have hfirst : FirstUnrepresentable (.int (.unsigned .w8))
      ([0, 1, -1, 0] : List (Word .w8)) 2 ⟨"-1", "u8"⟩ := by
    refine ⟨?_, -1, rfl, Cast.exists_ofWord_error_iff.1 ⟨_, rfl⟩, rfl⟩
    intro w hw
    rcases List.mem_pair.1 hw with rfl | rfl
    · exact Cast.exists_ofWord_iff.1 ⟨⟨0, by decide⟩, rfl⟩
    · exact Cast.exists_ofWord_iff.1 ⟨⟨1, by decide⟩, rfl⟩
  obtain ⟨hrefused, _, _, hslots, _⟩ :=
    elements_decoded_or_refused (.int (.unsigned .w8)) code 4
  obtain ⟨_, _, hok, hslots', _⟩ :=
    elements_decoded_or_refused (.float .binary32) code 4
  refine ⟨code, hdecode, ?_, ?_⟩
  · refine ((hslots _ rfl _).2 _).2 ⟨(hrefused _).2 (Or.inr ?_), rfl⟩
    exact ⟨_, 2, _, hdecode, hfirst, rfl⟩
  · refine (hslots' _ rfl _).1.2 ((hok _).2 ⟨_, hdecode, ?_⟩)
    exact .cons rfl (.cons rfl (.cons rfl (.cons rfl .nil)))

end KroneckerCode

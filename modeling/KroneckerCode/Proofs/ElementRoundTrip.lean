import KroneckerCode.Proofs.Encoder.Elements
import KroneckerCode.Proofs.RoundTrip

/-!
# Vectors of elements and codes correspond

Between elements and codes there are words, on the way in and on the way out.
The conversions of the two ways are never compared with each other, because both
are known by the number: an element is converted into the word with its number,
and a word into the fresh element with its number. So what is decoded has the
numbers that were encoded, and is the same but for what `Element.fresh` forgets.
What is decoded is encoded as the code that it came from.
-/

namespace KroneckerCode

open Limits

variable {s : WordSize} {e : ElementType} {xs : List (Element e)}
  {ws : List (Word s)} {code : Word s} {m : Nat}

namespace Decoder

/-- A list is converted if each of its words is, and into those elements. -/
theorem castList_eq_ok_iff {index : Nat} :
    castList e index ws = .ok xs ↔
      List.Forall₂ (fun w x => Cast.ofWord w e = .ok x) ws xs := by
  induction ws generalizing index xs with
  | nil =>
      rw [castList, Except.ok.injEq, List.forall₂_nil_left_iff, eq_comm]
  | cons w ws ih =>
      rw [castList, List.forall₂_cons_left_iff]
      simp only [bind_eq_ok_iff, mapError_eq_ok_iff, ih, pure, Except.pure,
        Except.ok.injEq]
      constructor
      · rintro ⟨x, hx, xs', hxs, rfl⟩
        exact ⟨x, xs', hx, hxs, rfl⟩
      · rintro ⟨x, xs', hx, hxs, rfl⟩
        exact ⟨x, hx, xs', hxs, rfl⟩

end Decoder

theorem decodeAs_eq_ok_iff :
    decodeAs e code m = .ok xs ↔
      ∃ ws, decode code m = .ok ws ∧
        List.Forall₂ (fun w x => Cast.ofWord w e = .ok x) ws xs := by
  rw [decodeAs, bind_eq_ok_iff]
  simp only [Decoder.castList_eq_ok_iff]

/-- Words are converted into the fresh elements with their numbers. -/
theorem SameNumbers.ofWord_fresh (h : SameNumbers e xs ws) :
    List.Forall₂ (fun w x => Cast.ofWord w e = .ok x) ws
      (xs.map (Element.fresh e)) := by
  rw [List.forall₂_map_right_iff]
  refine List.Forall₂.imp ?_ h.flip
  intro w x hx
  rw [Cast.ofWord_eq_ok_iff, Element.number?_fresh, Element.fresh_fresh]
  exact ⟨hx, rfl⟩

theorem SameNumbers.exists_number (h : SameNumbers e xs ws) {x : Element e}
    (hx : x ∈ xs) : ∃ n : Int, Element.number? e x = some (n : ℚ) := by
  induction h with
  | nil => cases hx
  | cons hhead _ ih =>
      rcases List.mem_cons.1 hx with rfl | htail
      · exact ⟨_, hhead⟩
      · exact ih htail

theorem encode_of_decodeAs (h : decodeAs e code m = .ok xs) :
    xs.length = m ∧ encode s e xs = .ok code := by
  obtain ⟨ws, hdecode, hcast⟩ := decodeAs_eq_ok_iff.1 h
  obtain ⟨entry, he, ha, hencode⟩ := decode_eq_ok_iff.1 hdecode
  have hsame : SameNumbers e xs ws :=
    (hcast.imp fun _ _ hx => (Cast.ofWord_eq_ok_iff.1 hx).1).flip
  refine ⟨?_, (encode_of_sameNumbers hsame).trans hencode⟩
  rw [hsame.length_eq, ha.length_eq]
  exact (lawful_standard s m entry he).1

theorem decodeAs_of_encode (hlen : xs.length = m)
    (h : encode s e xs = .ok code) :
    decodeAs e code m = .ok (xs.map (Element.fresh e)) ∧
      ∀ x ∈ xs, ∃ n : Int, Element.number? e x = some (n : ℚ) ∧
        Element.number? e (Element.fresh e x) = some (n : ℚ) := by
  obtain ⟨entry, ws, he, hsame, ha⟩ := allows_of_encode h
  rw [encode_of_sameNumbers hsame] at h
  rw [hlen] at he
  have hdecode : decode code m = .ok ws :=
    decode_eq_ok_iff.2 ⟨entry, he, ha, h⟩
  refine ⟨decodeAs_eq_ok_iff.2 ⟨ws, hdecode, hsame.ofWord_fresh⟩, ?_⟩
  intro x hx
  obtain ⟨n, hn⟩ := hsame.exists_number hx
  exact ⟨n, hn, by rw [Element.number?_fresh, hn]⟩

/-- What is decoded is encoded again as the code it came from. And what was
encoded is decoded again, into the fresh elements with the same numbers: a zero
has lost its sign, and an integer is in its smallest storage. The vectors that
can be encoded are those with the numbers of an allowed vector. -/
theorem decodeAs_encode (s : WordSize) (e : ElementType) (code : Word s)
    (m : Nat) :
    (∀ xs, decodeAs e code m = .ok xs →
      xs.length = m ∧ encode s e xs = .ok code) ∧
    (∀ xs, xs.length = m → encode s e xs = .ok code →
      decodeAs e code m = .ok (xs.map (Element.fresh e)) ∧
      ∀ x ∈ xs, ∃ n : Int, Element.number? e x = some (n : ℚ) ∧
        Element.number? e (Element.fresh e x) = some (n : ℚ)) ∧
    ∀ xs : List (Element e), (∃ code', encode s e xs = .ok code') ↔
      ∃ entry ws, (standard s).get? xs.length = some entry ∧
        SameNumbers e xs ws ∧ entry.Allows ws :=
  ⟨fun _ => encode_of_decodeAs, fun _ => decodeAs_of_encode,
    fun _ => exists_encode_iff⟩

/-- Four bytes as floating-point numbers, one of them a zero with a sign. -/
theorem decodeAs_encode_four_bytes :
    ∃ code : Word .w8,
      encode .w8 (.float .binary32) [Binary.negativeZero .binary32,
        Binary.ofInt .binary32 1, Binary.ofInt .binary32 (-1),
        Binary.zero .binary32] = .ok code ∧
      decodeAs (.float .binary32) code 4 = .ok [Binary.zero .binary32,
        Binary.ofInt .binary32 1, Binary.ofInt .binary32 (-1),
        Binary.zero .binary32] ∧
      encode .w8 (.float .binary32) [Binary.zero .binary32,
        Binary.ofInt .binary32 1, Binary.ofInt .binary32 (-1),
        Binary.zero .binary32] = .ok code := by
  have hm : 4 ≤ (standard .w8).maxDimension :=
    Nat.le_of_eq maxDimension_standard_w8.symm
  obtain ⟨e, he⟩ := get?_standard_of_le hm
  obtain ⟨hdim, hlawful⟩ := lawful_standard .w8 4 e he
  have ha : e.Allows [0, 1, -1, 0] :=
    hlawful.allows_of_abs_le_one hdim.symm (by decide)
  obtain ⟨code, hencode, _⟩ := decode_of_encode he ha
  have hzero (negative : Bool) :
      (Binary.ofMagnitude .binary32 negative 0).datum.number? =
        some ((0 : Int) : ℚ) := Binary.number?_ofMagnitude_zero _ _
  have hone : (Binary.ofInt .binary32 1).datum.number? =
      some ((1 : Int) : ℚ) :=
    Binary.number?_ofInt_of_bitLength_le (by decide)
  have hminus : (Binary.ofInt .binary32 (-1)).datum.number? =
      some ((-1 : Int) : ℚ) :=
    Binary.number?_ofInt_of_bitLength_le (by decide)
  have hsame : SameNumbers (.float .binary32) [Binary.negativeZero .binary32,
      Binary.ofInt .binary32 1, Binary.ofInt .binary32 (-1),
      Binary.zero .binary32] ([0, 1, -1, 0] : List (Word .w8)) :=
    .cons (hzero true) (.cons hone (.cons hminus (.cons (hzero false) .nil)))
  rw [← encode_of_sameNumbers hsame] at hencode
  obtain ⟨hback, hagain, _⟩ := decodeAs_encode .w8 (.float .binary32) code 4
  have hdecode := (hagain _ rfl hencode).1
  have hfresh : List.map (Element.fresh (.float .binary32))
      [Binary.negativeZero .binary32, Binary.ofInt .binary32 1,
        Binary.ofInt .binary32 (-1), Binary.zero .binary32] =
      [Binary.zero .binary32, Binary.ofInt .binary32 1,
        Binary.ofInt .binary32 (-1), Binary.zero .binary32] := by
    change [(Binary.negativeZero .binary32).dropZeroSign,
      (Binary.ofInt .binary32 1).dropZeroSign,
      (Binary.ofInt .binary32 (-1)).dropZeroSign,
      (Binary.zero .binary32).dropZeroSign] = _
    rw [Binary.dropZeroSign_negativeZero, Binary.dropZeroSign_ofInt hone,
      Binary.dropZeroSign_ofInt hminus, Binary.dropZeroSign_zero]
  rw [hfresh] at hdecode
  exact ⟨code, hencode, hdecode, (hback _ hdecode).2⟩

end KroneckerCode

import KroneckerCode.Proofs.Decoder.Batch
import KroneckerCode.Proofs.Encoder.Batch

/-!
# Vectors and codes correspond

For every dimension of the standard table of a size, encoding and decoding are
inverse to each other, between the vectors that the entry allows and the words
within its range of codes. Both directions meet in the rank: the code of a
vector is its rank above the least code, and the vector of a code is the one at
that rank.

Nothing else is decoded. A dimension that the table does not have, and a word
outside the range, have each an error of their own, and these errors occur in no
other case.
-/

namespace KroneckerCode

open MixedRadix Limits

variable {s : WordSize} {m : Nat} {code : Word s} {e : Entry s}
  {v : List (Word s)}

theorem Word.map_toInt_eq_ok_iff {ε : Type} {x : Except ε (Word s)}
    {w : Word s} : x.map Word.toInt = .ok w.toInt ↔ x = .ok w := by
  cases x with
  | error err => exact iff_of_false (fun h => by cases h) fun h => by cases h
  | ok a =>
      rw [Except.map, Except.ok.injEq, Except.ok.injEq]
      exact toInt_inj

theorem contains_of_rank (hl : e.Lawful) {r : Nat}
    (hr : r < count e.digitBounds)
    (hcode : code.toInt = r + e.hMin.toInt) : e.Contains code := by
  have hdelta := hl.delta_eq
  have hcount := hl.count_eq
  rw [Entry.Contains, Word.le_iff, Word.le_iff]
  omega

/-! ## Both directions -/

theorem decode_of_encode (he : (standard s).get? m = some e)
    (ha : e.Allows v) :
    ∃ code, encode s (.int (.signed s)) (v.map Word.toElement) = .ok code ∧
      e.Contains code ∧ decode code m = .ok v := by
  obtain ⟨hdim, hlawful⟩ := lawful_standard s m e he
  have hlen : v.length = m := ha.length_eq.trans hdim
  have hallows := hlawful.allows_iff.1 ha
  obtain ⟨code, hencode, hcode⟩ := encode_of_allows (hlen ▸ he) ha
  have hcontains := contains_of_rank hlawful (rank_lt_count hallows) hcode
  obtain ⟨w, hdecode, _, hw⟩ := decode_of_contains he hcontains
  rw [hcode, Int.add_sub_cancel, Int.toNat_natCast, unrank_rank hallows,
    Word.map_toInt_inj] at hw
  exact ⟨code, hencode, hcontains, hw ▸ hdecode⟩

theorem encode_of_decode (he : (standard s).get? m = some e)
    (hc : e.Contains code) :
    ∃ v, decode code m = .ok v ∧ e.Allows v ∧
      encode s (.int (.signed s)) (v.map Word.toElement) = .ok code := by
  obtain ⟨hdim, hlawful⟩ := lawful_standard s m e he
  obtain ⟨v, hdecode, ha, hv⟩ := decode_of_contains he hc
  have hlen : v.length = m := ha.length_eq.trans hdim
  obtain ⟨code', hencode, hcode'⟩ := encode_of_allows (hlen ▸ he) ha
  refine ⟨v, hdecode, ha, ?_⟩
  have hlt : (code.toInt - e.hMin.toInt).toNat < count e.digitBounds :=
    (Decoder.splits_start hlawful hc).lt_count
  have hlo := Word.le_iff.1 hc.1
  rw [hv, rank_unrank_of_lt hlt] at hcode'
  rw [hencode, Except.ok.injEq, ← Word.toInt_inj]
  omega

/-- A word is decoded into a vector exactly if it is the code of that vector. -/
theorem decode_eq_ok_iff :
    decode code m = .ok v ↔
      ∃ e, (standard s).get? m = some e ∧ e.Allows v ∧
        encode s (.int (.signed s)) (v.map Word.toElement) = .ok code := by
  constructor
  · intro h
    cases hdec : Decoder.ofCode code m with
    | error err =>
        rw [decode, hdec] at h
        cases h
    | ok dec =>
        obtain ⟨e, he, hc, _⟩ := Decoder.exists_entry_of_ofCode hdec
        obtain ⟨w, hdecode, ha, hencode⟩ := encode_of_decode he hc
        obtain rfl : w = v := Except.ok.inj (hdecode.symm.trans h)
        exact ⟨e, he, ha, hencode⟩
  · rintro ⟨e, he, ha, hencode⟩
    obtain ⟨code', hencode', _, hdecode⟩ := decode_of_encode he ha
    obtain rfl : code' = code := Except.ok.inj (hencode'.symm.trans hencode)
    exact hdecode

/-- No two allowed vectors have the same code. -/
theorem existsUnique_encode (he : (standard s).get? m = some e)
    (hc : e.Contains code) :
    ∃! v, e.Allows v ∧
      encode s (.int (.signed s)) (v.map Word.toElement) = .ok code := by
  obtain ⟨v, hdecode, ha, hencode⟩ := encode_of_decode he hc
  refine ⟨v, ⟨ha, hencode⟩, ?_⟩
  rintro w ⟨hw, hencodew⟩
  obtain ⟨code', hencode', _, hdecode'⟩ := decode_of_encode he hw
  rw [hencodew, Except.ok.injEq] at hencode'
  rw [← hencode', hdecode, Except.ok.injEq] at hdecode'
  exact hdecode'.symm

/-! ## A vector and its code -/

/-- The vector is allowed, and it and the word are code and decoding of each
other. -/
structure Limits.Entry.Codes (e : Entry s) (v : List (Word s))
    (code : Word s) : Prop where
  allows : e.Allows v
  contains : e.Contains code
  encode_eq : encode s (.int (.signed s)) (v.map Word.toElement) = .ok code
  decode_eq : decode code e.dimension = .ok v

theorem exists_codes_of_allows (he : (standard s).get? m = some e)
    (ha : e.Allows v) : ∃ code, e.Codes v code := by
  obtain ⟨code, hencode, hcontains, hdecode⟩ := decode_of_encode he ha
  rw [← (lawful_standard s m e he).1] at hdecode
  exact ⟨code, ha, hcontains, hencode, hdecode⟩

theorem exists_codes_of_contains (he : (standard s).get? m = some e)
    (hc : e.Contains code) : ∃ v, e.Codes v code := by
  obtain ⟨v, hdecode, ha, hencode⟩ := encode_of_decode he hc
  rw [← (lawful_standard s m e he).1] at hdecode
  exact ⟨v, ha, hc, hencode, hdecode⟩

theorem Limits.Entry.Codes.toInt_eq_rank (h : e.Codes v code)
    (he : (standard s).get? m = some e) :
    code.toInt = rank e.digitBounds (v.map Word.toInt) + e.hMin.toInt := by
  have hlen := h.allows.length_eq.trans (lawful_standard s m e he).1
  obtain ⟨code', hencode, hcode⟩ := encode_of_allows (hlen ▸ he) h.allows
  rw [h.encode_eq, Except.ok.injEq] at hencode
  rw [hencode, hcode]

/-- Decoding undoes encoding, for every allowed vector of every dimension that
the table has. -/
theorem decode_encode (s : WordSize) {m : Nat}
    (hm : m ≤ (standard s).maxDimension) :
    ∃ e, (standard s).get? m = some e ∧ e.dimension = m ∧
      ∀ v : List (Word s), e.Allows v →
        ∃ code,
          encode s (.int (.signed s)) (v.map Word.toElement) = .ok code ∧
          e.Contains code ∧ decode code m = .ok v := by
  obtain ⟨e, he⟩ := get?_standard_of_le hm
  exact ⟨e, he, (lawful_standard s m e he).1, fun v => decode_of_encode he⟩

/-- Bytes code four components, and none of them has a bound below one. -/
theorem decode_encode_four_bytes :
    (4 ≤ (standard .w8).maxDimension) ∧
    ∃ e, (standard .w8).get? 4 = some e ∧ e.Allows [1, -1, 0, 1] ∧
      ∃ code : Word .w8,
        encode .w8 (.int (.signed .w8))
          (List.map Word.toElement [1, -1, 0, 1]) = .ok code ∧
        e.Contains code ∧ decode code 4 = .ok [1, -1, 0, 1] := by
  have hm : 4 ≤ (standard .w8).maxDimension :=
    Nat.le_of_eq maxDimension_standard_w8.symm
  obtain ⟨e, he, hdim, h⟩ := decode_encode .w8 hm
  have hlawful := (lawful_standard .w8 4 e he).2
  have ha : e.Allows [1, -1, 0, 1] :=
    hlawful.allows_of_abs_le_one hdim.symm (by decide)
  exact ⟨hm, e, he, ha, h _ ha⟩

/-! ## What is decoded -/

theorem decode_eq_dimensionTooLarge_iff (code : Word s) (size : Nat) :
    decode code size =
        .error (.dimensionTooLarge size (standard s).maxDimension s.name) ↔
      (standard s).maxDimension < size := by
  refine ⟨fun h => ?_, decode_of_lt⟩
  by_contra hle
  obtain ⟨e, he⟩ := get?_standard_of_le (Nat.not_lt.1 hle)
  by_cases hc : e.Contains code
  · obtain ⟨v, hdecode, _⟩ := decode_of_contains he hc
    rw [hdecode] at h
    cases h
  · rw [decode_of_not_contains he hc, Decoder.refusal, Except.error.injEq] at h
    split at h
    · cases h
    · cases h

theorem decode_zero_outcome (he : (standard s).get? 0 = some e)
    (code : Word s) :
    (decode code 0 = .ok [] ↔ code = 0) ∧
      (decode code 0 = .error (.invalidZeroSizeCode code.toInt) ↔
        code ≠ 0) := by
  have hc := Decoder.contains_iff_of_zero he code
  by_cases hzero : code = 0
  · obtain ⟨v, hdecode, ha, _⟩ := decode_of_contains he (hc.2 hzero)
    have hdim := (lawful_standard s 0 e he).1
    have hnil : v = [] :=
      List.length_eq_zero_iff.1 (ha.length_eq.trans hdim)
    rw [hnil] at hdecode
    refine ⟨iff_of_true hdecode hzero, iff_of_false ?_ (absurd hzero)⟩
    rw [hdecode]
    intro h
    cases h
  · have hdecode := decode_of_not_contains he (mt hc.1 hzero)
    rw [Decoder.refusal, if_pos rfl] at hdecode
    refine ⟨iff_of_false ?_ hzero, iff_of_true hdecode hzero⟩
    rw [hdecode]
    intro h
    cases h

theorem decode_eq_codeOutOfRange_iff (he : (standard s).get? m = some e)
    (hm : m ≠ 0) (code : Word s) :
    decode code m =
        .error (.codeOutOfRange code.toInt m e.hMin.toInt e.hMax.toInt) ↔
      ¬ e.Contains code := by
  constructor
  · intro h hc
    obtain ⟨v, hdecode, _⟩ := decode_of_contains he hc
    rw [hdecode] at h
    cases h
  · intro hc
    rw [decode_of_not_contains he hc, Decoder.refusal, if_neg hm]

/-- The outcome of decoding a word, for every size that is asked for. A word is
refused for its dimension, or for being no code of it, and in no other case;
what is left is decoded into a vector with that code. The codes are all the
integers between the least and the greatest. -/
theorem decode_outcome (code : Word s) (size : Nat) :
    (decode code size =
        .error (.dimensionTooLarge size (standard s).maxDimension s.name) ↔
      (standard s).maxDimension < size) ∧
    (size ≤ (standard s).maxDimension →
      ∃ e, (standard s).get? size = some e ∧
        (size = 0 →
          (decode code size = .ok [] ↔ code = 0) ∧
          (decode code size = .error (.invalidZeroSizeCode code.toInt) ↔
            code ≠ 0)) ∧
        (size ≠ 0 →
          (decode code size = .error (.codeOutOfRange code.toInt size
              e.hMin.toInt e.hMax.toInt) ↔
            ¬ (e.hMin.toInt ≤ code.toInt ∧ code.toInt ≤ e.hMax.toInt))) ∧
        (e.hMin.toInt ≤ code.toInt ∧ code.toInt ≤ e.hMax.toInt →
          ∃ v, decode code size = .ok v ∧ v.length = size ∧ e.Allows v ∧
            encode s (.int (.signed s)) (v.map Word.toElement) = .ok code) ∧
        (∀ n : Int, e.hMin.toInt ≤ n → n ≤ e.hMax.toInt →
          ∃! v : List (Word s), e.Allows v ∧
            (encode s (.int (.signed s)) (v.map Word.toElement)).map
              Word.toInt = .ok n)) := by
  refine ⟨decode_eq_dimensionTooLarge_iff code size, fun hsize => ?_⟩
  obtain ⟨e, he⟩ := get?_standard_of_le hsize
  refine ⟨e, he, ?_, ?_, ?_, ?_⟩
  · intro hzero
    subst hzero
    exact decode_zero_outcome he code
  · intro hzero
    exact decode_eq_codeOutOfRange_iff he hzero code
  · intro hc
    obtain ⟨v, hdecode, ha, hencode⟩ := encode_of_decode he hc
    have hdim := (lawful_standard s size e he).1
    exact ⟨v, hdecode, ha.length_eq.trans hdim, ha, hencode⟩
  · intro n hlo hhi
    have hn := Word.toInt_ofInt
      (e.hMin.holds_toInt.of_between e.hMax.holds_toInt hlo hhi)
    have hc : e.Contains (Word.ofInt n) := by
      rw [Entry.Contains, Word.le_iff, Word.le_iff, hn]
      exact ⟨hlo, hhi⟩
    have h := existsUnique_encode he hc
    simp only [← Word.map_toInt_eq_ok_iff, hn] at h
    exact h

/-- Bytes have a refusal of each kind, and zero is a code of four of them. -/
theorem decode_outcome_bytes :
    decode (0 : Word .w8) 5 = .error (.dimensionTooLarge 5 4 "i8") ∧
    decode (1 : Word .w8) 0 = .error (.invalidZeroSizeCode 1) ∧
    ∃ e, (standard .w8).get? 4 = some e ∧
      decode (127 : Word .w8) 4 =
        .error (.codeOutOfRange 127 4 e.hMin.toInt e.hMax.toInt) ∧
      ∃ v, decode (0 : Word .w8) 4 = .ok v ∧ v.length = 4 ∧ e.Allows v ∧
        encode .w8 (.int (.signed .w8)) (v.map Word.toElement) = .ok 0 := by
  have hmax := maxDimension_standard_w8
  have hlarge := (decode_outcome (0 : Word .w8) 5).1.2 (by omega)
  obtain ⟨e₀, _, hzero, _⟩ := (decode_outcome (1 : Word .w8) 0).2 (by omega)
  obtain ⟨e, he, _, hrange, _⟩ :=
    (decode_outcome (127 : Word .w8) 4).2 (by omega)
  obtain ⟨e', he', _, _, hcode, _⟩ :=
    (decode_outcome (0 : Word .w8) 4).2 (by omega)
  have hsame : e' = e := Option.some.inj (he'.symm.trans he)
  subst hsame
  have hlawful := (lawful_standard .w8 4 e' he').2
  have hwidth := hlawful.delta_succ_le
  have hdelta := hlawful.delta_eq
  have hlo := hlawful.hMin_eq
  have hword : (127 : Word .w8).toInt = 127 := by decide
  have hlimit : WordSize.w8.maxValue = 127 := by decide
  rw [hmax] at hlarge
  refine ⟨hlarge, (hzero rfl).2.2 (by decide), e', he', ?_, ?_⟩
  · exact (hrange (by decide)).2 (by omega)
  · have hcontains := hlawful.contains_zero
    exact hcode ⟨hcontains.1, hcontains.2⟩

end KroneckerCode

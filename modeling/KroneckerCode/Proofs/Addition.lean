import KroneckerCode.Proofs.Encoder.Substitution
import KroneckerCode.Proofs.RoundTrip
import Mathlib.Data.List.Zip

/-!
# Codes add like vectors

A code is the sum of the components of its vector, each times the worth of its
place, and a sum of that kind is additive: the shifts that an encoder puts on
the digits, and takes back at the end, are nowhere in it. So the sum of two
codes is the weight of the sum of their vectors, and if that vector is allowed
the sum is its code. The machine adds exactly there, since a code is a word, and
it adds the components exactly in any case, because twice a bound is below the
number of its digits.

Opposites are easier still: the bounds are symmetric, so the opposite of an
allowed vector is allowed, and of a code a code. Differences are sums with an
opposite.
-/

namespace KroneckerCode

open MixedRadix Limits

variable {s : WordSize} {m : Nat} {e : Entry s} {u v : List (Word s)}
  {c d : Word s}

/-! ## Sums of words -/

theorem Word.sub_eq_add_neg (a b : Word s) : a - b = a + -b :=
  Word.ext (BitVec.sub_eq_add_neg _ _)

theorem zipWith_sub_eq (u v : List (Word s)) :
    List.zipWith (· - ·) u v = List.zipWith (· + ·) u (v.map Neg.neg) := by
  rw [List.zipWith_map_right]
  simp only [Word.sub_eq_add_neg]

namespace Limits.Entry

/-- The components of two allowed vectors are added without reduction. -/
theorem Lawful.map_toInt_zipWith_add (h : e.Lawful) (hu : e.Allows u)
    (hv : e.Allows v) :
    (List.zipWith (· + ·) u v).map Word.toInt =
      List.zipWith (· + ·) (u.map Word.toInt) (v.map Word.toInt) := by
  rw [List.map_zipWith, List.zipWith_map]
  refine List.zipWith_congr _ _ _ _ ?_
  refine List.forall₂_of_length_eq_of_get
    (hu.length_eq.trans hv.length_eq.symm) fun i h₁ h₂ => ?_
  have hi : i < e.bounds.length := by rw [List.Forall₂.length_eq hu]; exact h₁
  have ha := List.Forall₂.get hu hi h₁
  have hb := List.Forall₂.get hv hi h₂
  have hbound := two_mul_bound_lt_count (List.get_mem e.bounds ⟨i, hi⟩)
  exact Word.toInt_add_of_holds (h.holds (by omega) (by omega))

theorem Lawful.map_toInt_zipWith_sub (h : e.Lawful) (hu : e.Allows u)
    (hv : e.Allows v) :
    (List.zipWith (· - ·) u v).map Word.toInt =
      List.zipWith (· - ·) (u.map Word.toInt) (v.map Word.toInt) := by
  rw [zipWith_sub_eq, h.map_toInt_zipWith_add hu (h.allows_neg hv),
    hv.map_toInt_neg, List.zipWith_map_right]
  simp only [← Int.sub_eq_add_neg]

/-! ## Sums of codes -/

theorem Codes.toInt_eq_weigh (h : e.Codes v c)
    (he : (standard s).get? m = some e) :
    c.toInt = weigh e.digitBounds (v.map Word.toInt) := by
  have hl := (lawful_standard s m e he).2
  rw [h.toInt_eq_rank he, hl.weigh_eq h.allows]

theorem Allows.holds_weigh (ha : e.Allows v)
    (he : (standard s).get? m = some e) :
    s.Holds (weigh e.digitBounds (v.map Word.toInt)) := by
  obtain ⟨c, hc⟩ := exists_codes_of_allows he ha
  exact hc.toInt_eq_weigh he ▸ c.holds_toInt

/-- The word that denotes the weight of an allowed vector is its code. -/
theorem Allows.codes (ha : e.Allows v) (he : (standard s).get? m = some e)
    (hc : c.toInt = weigh e.digitBounds (v.map Word.toInt)) :
    e.Codes v c := by
  obtain ⟨c', hc'⟩ := exists_codes_of_allows he ha
  have hsame : c' = c := by
    rw [← Word.toInt_inj, hc, hc'.toInt_eq_weigh he]
  exact hsame ▸ hc'

theorem Codes.neg (hc : e.Codes v c) (he : (standard s).get? m = some e) :
    (-c).toInt = -c.toInt ∧ e.Codes (v.map Neg.neg) (-c) := by
  have ha := (lawful_standard s m e he).2.allows_neg hc.allows
  have hweigh : weigh e.digitBounds ((v.map Neg.neg).map Word.toInt) =
      -c.toInt := by
    rw [hc.allows.map_toInt_neg, hc.toInt_eq_weigh he]
    exact weighFrom_map_neg 1 _ _
  have hexact := Word.toInt_neg_of_holds (hweigh ▸ ha.holds_weigh he)
  exact ⟨hexact, ha.codes he (hexact.trans hweigh.symm)⟩

theorem Codes.add (hc : e.Codes u c) (hd : e.Codes v d)
    (he : (standard s).get? m = some e)
    (ha : e.Allows (List.zipWith (· + ·) u v)) :
    (c + d).toInt = c.toInt + d.toInt ∧
      e.Codes (List.zipWith (· + ·) u v) (c + d) := by
  have hl := (lawful_standard s m e he).2
  have hlen : (u.map Word.toInt).length = (v.map Word.toInt).length := by
    rw [List.length_map, List.length_map, hc.allows.length_eq,
      hd.allows.length_eq]
  have hweigh : weigh e.digitBounds
      ((List.zipWith (· + ·) u v).map Word.toInt) = c.toInt + d.toInt := by
    rw [hl.map_toInt_zipWith_add hc.allows hd.allows, hc.toInt_eq_weigh he,
      hd.toInt_eq_weigh he]
    exact weighFrom_zipWith_add 1 _ hlen
  have hexact := Word.toInt_add_of_holds (hweigh ▸ ha.holds_weigh he)
  exact ⟨hexact, ha.codes he (hexact.trans hweigh.symm)⟩

theorem Codes.sub (hc : e.Codes u c) (hd : e.Codes v d)
    (he : (standard s).get? m = some e)
    (ha : e.Allows (List.zipWith (· - ·) u v)) :
    (c - d).toInt = c.toInt - d.toInt ∧
      e.Codes (List.zipWith (· - ·) u v) (c - d) := by
  obtain ⟨hneg, hd'⟩ := hd.neg he
  rw [zipWith_sub_eq] at ha ⊢
  obtain ⟨hexact, hsum⟩ := hc.add hd' he ha
  rw [Word.sub_eq_add_neg, hexact, hneg, Int.sub_eq_add_neg]
  exact ⟨rfl, hsum⟩

end Limits.Entry

/-- The sum of the codes of two vectors is the code of their sum, if that is
allowed, and the same goes for the difference. The opposite of a code is the
code of the opposite vector. The machine reduces none of these sums, neither of
codes nor of components. -/
theorem code_addition (s : WordSize) {m : Nat}
    (hm : m ≤ (standard s).maxDimension) :
    ∃ e, (standard s).get? m = some e ∧ e.dimension = m ∧
      (∀ u v : List (Word s), e.Allows u → e.Allows v →
        ∃ c d, e.Codes u c ∧ e.Codes v d ∧
          (List.zipWith (· + ·) u v).map Word.toInt =
            List.zipWith (· + ·) (u.map Word.toInt) (v.map Word.toInt) ∧
          (List.zipWith (· - ·) u v).map Word.toInt =
            List.zipWith (· - ·) (u.map Word.toInt) (v.map Word.toInt) ∧
          (e.Allows (List.zipWith (· + ·) u v) →
            Word.add? c d = some (c + d) ∧
            e.Codes (List.zipWith (· + ·) u v) (c + d)) ∧
          (e.Allows (List.zipWith (· - ·) u v) →
            Word.sub? c d = some (c - d) ∧
            e.Codes (List.zipWith (· - ·) u v) (c - d))) ∧
      (∀ c : Word s, e.Contains c →
        ∃ v, e.Codes v c ∧ Word.neg? c = some (-c) ∧
          (v.map Neg.neg).map Word.toInt = (v.map Word.toInt).map Neg.neg ∧
          e.Codes (v.map Neg.neg) (-c)) := by
  obtain ⟨e, he⟩ := get?_standard_of_le hm
  obtain ⟨hdim, hl⟩ := lawful_standard s m e he
  refine ⟨e, he, hdim, ?_, ?_⟩
  · intro u v hu hv
    obtain ⟨c, hc⟩ := exists_codes_of_allows he hu
    obtain ⟨d, hd⟩ := exists_codes_of_allows he hv
    refine ⟨c, d, hc, hd, hl.map_toInt_zipWith_add hu hv,
      hl.map_toInt_zipWith_sub hu hv, ?_, ?_⟩
    · intro ha
      rw [Word.add?_eq_iff]
      exact hc.add hd he ha
    · intro ha
      rw [Word.sub?_eq_iff]
      exact hc.sub hd he ha
  · intro c hc
    obtain ⟨v, hv⟩ := exists_codes_of_contains he hc
    rw [Word.neg?_eq_iff]
    obtain ⟨hexact, hneg⟩ := hv.neg he
    exact ⟨v, hv, hexact, hv.allows.map_toInt_neg, hneg⟩

/-- Four bytes, with a sum and a difference within any bounds. -/
theorem code_addition_four_bytes :
    4 ≤ (standard .w8).maxDimension ∧
    ∃ e, (standard .w8).get? 4 = some e ∧
      e.Allows [1, 0, 0, 0] ∧ e.Allows [0, 1, 0, -1] ∧
      e.Allows [1, 1, 0, -1] ∧ e.Allows [1, -1, 0, 1] ∧
      ∃ c d, e.Codes [1, 0, 0, 0] c ∧ e.Codes [0, 1, 0, -1] d ∧
        e.Codes [1, 1, 0, -1] (c + d) ∧ e.Codes [1, -1, 0, 1] (c - d) ∧
        ∃ v, e.Codes v c ∧ e.Codes (v.map Neg.neg) (-c) := by
  have hm : 4 ≤ (standard .w8).maxDimension :=
    Nat.le_of_eq maxDimension_standard_w8.symm
  obtain ⟨e, he, hdim, h, hopposite⟩ := code_addition .w8 hm
  have hlawful := (lawful_standard .w8 4 e he).2
  have hu : e.Allows [1, 0, 0, 0] :=
    hlawful.allows_of_abs_le_one hdim.symm (by decide)
  have hv : e.Allows [0, 1, 0, -1] :=
    hlawful.allows_of_abs_le_one hdim.symm (by decide)
  have hsum : e.Allows [1, 1, 0, -1] :=
    hlawful.allows_of_abs_le_one hdim.symm (by decide)
  have hdiff : e.Allows [1, -1, 0, 1] :=
    hlawful.allows_of_abs_le_one hdim.symm (by decide)
  obtain ⟨c, d, hc, hd, _, _, hadd, hsub⟩ := h _ _ hu hv
  obtain ⟨v, hcode, _, _, hneg⟩ := hopposite c hc.contains
  exact ⟨hm, e, he, hu, hv, hsum, hdiff, c, d, hc, hd, (hadd hsum).2,
    (hsub hdiff).2, v, hcode, hneg⟩

end KroneckerCode

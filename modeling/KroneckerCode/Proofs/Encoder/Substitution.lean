import KroneckerCode.Proofs.Encoder.Stream

/-!
# The code is a weighted sum

An encoder never forms the number that it is asked for. It adds up digits that
are shifted to be positive, and takes all the shifts back at once, by a least
code that the search for limits worked out with bounds of its own. What comes
out is the signed sum all the same: each component times the worth of its place,
where the first place is worth one and every other is worth as much as all the
digits below it. For the rank is the weight of a vector above the weight of the
least, and the least code of a lawful entry is just that weight.

No two vectors have the same weight, so only the vector of all bounds reaches
the greatest code, and only its opposite the least.
-/

namespace KroneckerCode

open MixedRadix Limits

variable {s : WordSize}

namespace Limits.Entry

variable {e : Entry s} {v : List (Word s)}

/-- A code that is a rank above the least code is the weight of its vector. -/
theorem Lawful.weigh_eq (h : e.Lawful) (ha : e.Allows v) :
    weigh e.digitBounds (v.map Word.toInt) =
      rank e.digitBounds (v.map Word.toInt) + e.hMin.toInt := by
  have hweigh := weigh_add_dot (h.allows_iff.1 ha)
  rw [h.hMin_eq, h.hMax_eq]
  omega

theorem Lawful.map_toInt_bounds (h : e.Lawful) :
    e.bounds.map Word.toInt = e.digitBounds.map Nat.cast := by
  rw [digitBounds, List.map_map]
  refine List.map_congr_left fun b hb => ?_
  have hpos := h.one_le_bound b hb
  exact (Int.toNat_of_nonneg (by omega)).symm

theorem Lawful.allows_bounds (h : e.Lawful) : e.Allows e.bounds := by
  rw [h.allows_iff, h.map_toInt_bounds]
  exact MixedRadix.allows_bounds _

/-- A component has its opposite, since its bound has one. -/
theorem Allows.map_toInt_neg (ha : e.Allows v) :
    (v.map Neg.neg).map Word.toInt = (v.map Word.toInt).map Neg.neg := by
  rw [List.map_map, List.map_map]
  refine List.map_congr_left fun n hn => ?_
  obtain ⟨b, _, hlo, hhi⟩ := ha.exists_bound hn
  exact Word.toInt_neg_of_holds (b.holds_toInt.of_abs_le (by omega) (by omega))

theorem Lawful.allows_neg (h : e.Lawful) (ha : e.Allows v) :
    e.Allows (v.map Neg.neg) := by
  rw [h.allows_iff, ha.map_toInt_neg]
  exact allows_map_neg (h.allows_iff.1 ha)

/-- The greatest code is the weight of the bounds and of no other vector. -/
theorem Lawful.weigh_eq_hMax_iff (h : e.Lawful) (ha : e.Allows v) :
    weigh e.digitBounds (v.map Word.toInt) = e.hMax.toInt ↔ v = e.bounds := by
  have hgreatest : weigh e.digitBounds (e.bounds.map Word.toInt) =
      e.hMax.toInt := by
    rw [h.map_toInt_bounds, h.hMax_eq]
    exact weighFrom_bounds 1 _
  rw [← hgreatest, weigh_inj (h.allows_iff.1 ha)
    (h.allows_iff.1 h.allows_bounds), Word.map_toInt_inj]

theorem Lawful.weigh_eq_hMin_iff (h : e.Lawful) (ha : e.Allows v) :
    weigh e.digitBounds (v.map Word.toInt) = e.hMin.toInt ↔
      v = e.bounds.map Neg.neg := by
  have hleast : weigh e.digitBounds ((e.bounds.map Neg.neg).map Word.toInt) =
      e.hMin.toInt := by
    rw [h.allows_bounds.map_toInt_neg, h.map_toInt_bounds, h.hMin_eq,
      h.hMax_eq, weigh, weighFrom_map_neg, weighFrom_bounds]
    rfl
  rw [← hleast, weigh_inj (h.allows_iff.1 ha)
    (h.allows_iff.1 (h.allows_neg h.allows_bounds)), Word.map_toInt_inj]

end Limits.Entry

/-! ## Components offered one at a time -/

namespace Encoder

variable {enc : Encoder s} {taken rest : List (Word s)}

/-- An encoder that is offered the rest of an allowed vector takes all of it. -/
theorem Carries.accepted_push (h : enc.Carries taken)
    (ha : enc.entry.Allows (taken ++ rest)) :
    enc.accepted (rest.map .push) = rest := by
  induction rest generalizing enc taken with
  | nil => rfl
  | cons n rest ih =>
      obtain ⟨b, hb, hn⟩ := h.next_allowed ha
      have hpush := push_of_bound h.lawful hb n
      rw [if_pos hn] at hpush
      rw [List.append_cons] at ha
      have hrest := ih (h.accept hb hn) ha
      simp only [List.map_cons, accepted, acceptedBy, acceptedWhile, call,
        hpush, hrest, List.singleton_append]

/-- An encoder that was offered an allowed vector has the code of the vector. -/
theorem call_get_after_push {e : Entry s} {v : List (Word s)}
    (he : (standard s).get? v.length = some e) (ha : e.Allows v) :
    ∃ code, encode s (.int (.signed s)) (v.map Word.toElement) = .ok code ∧
      (((start e).after (v.map .push)).call .get).1 = .code code := by
  have hstart := carries_start (lawful_standard s _ e he).2
  obtain ⟨hentry, hcarries⟩ := hstart.after_accepted (v.map .push)
  rw [hstart.accepted_push ha, List.nil_append] at hcarries
  have hentry' : ((start e).after (v.map .push)).entry = e := hentry
  obtain ⟨code, hencode, hget⟩ := hcarries.get_eq_encode (by rw [hentry']; exact he)
  refine ⟨code, hencode, ?_⟩
  rw [call, hget]

end Encoder

/-! ## Every vector -/

/-- The code of an allowed vector is the sum of its components, each times the
worth of its place, for the whole vector at once and for its components one at a
time. It is the greatest code for the vector of all bounds alone, and the least
for the opposite of that. With one component nothing is left of the sum but the
component. -/
theorem encode_eq_weigh (s : WordSize) {m : Nat}
    (hm : m ≤ (standard s).maxDimension) :
    ∃ e enc, (standard s).get? m = some e ∧ e.dimension = m ∧
      Encoder.ofSize s m = .ok enc ∧
      e.Allows e.bounds ∧ e.Allows (e.bounds.map Neg.neg) ∧
      (∀ v, e.Allows v → ∃ code,
        encode s (.int (.signed s)) (v.map Word.toElement) = .ok code ∧
        ((enc.after (v.map .push)).call .get).1 = .code code ∧
        code.toInt = weigh e.digitBounds (v.map Word.toInt) ∧
        (code = e.hMax ↔ v = e.bounds) ∧
        (code = e.hMin ↔ v = e.bounds.map Neg.neg)) ∧
      (m = 1 → ∀ w, e.Allows [w] →
        encode s (.int (.signed s)) [w.toElement] = .ok w) := by
  obtain ⟨e, he⟩ := get?_standard_of_le hm
  obtain ⟨hdim, hlawful⟩ := lawful_standard s m e he
  have hsum : ∀ v, e.Allows v → ∃ code,
      encode s (.int (.signed s)) (v.map Word.toElement) = .ok code ∧
      code.toInt = weigh e.digitBounds (v.map Word.toInt) := by
    intro v ha
    have hlen : v.length = m := ha.length_eq.trans hdim
    obtain ⟨code, hencode, hcode⟩ := encode_of_allows (hlen ▸ he) ha
    exact ⟨code, hencode, hcode.trans (hlawful.weigh_eq ha).symm⟩
  refine ⟨e, Encoder.start e, he, hdim, Encoder.ofSize_eq he,
    hlawful.allows_bounds, hlawful.allows_neg hlawful.allows_bounds, ?_, ?_⟩
  · intro v ha
    have hlen : v.length = m := ha.length_eq.trans hdim
    obtain ⟨code, hencode, hcode⟩ := hsum v ha
    obtain ⟨code', hencode', hget⟩ :=
      Encoder.call_get_after_push (hlen ▸ he) ha
    rw [hencode, Except.ok.injEq] at hencode'
    subst hencode'
    refine ⟨code, hencode, hget, hcode, ?_, ?_⟩
    · rw [← Word.toInt_inj, hcode, hlawful.weigh_eq_hMax_iff ha]
    · rw [← Word.toInt_inj, hcode, hlawful.weigh_eq_hMin_iff ha]
  · intro hone w ha
    obtain ⟨code, hencode, hcode⟩ := hsum [w] ha
    obtain ⟨b, hb⟩ : ∃ b, e.digitBounds = [b] := by
      rw [← List.length_eq_one_iff, Entry.length_digitBounds, hdim, hone]
    have hself : code = w := by
      rw [← Word.toInt_inj, hcode, hb]
      simp [weigh, weighFrom]
    rw [hself] at hencode
    exact hencode

/-- Four bytes and their code, and one byte that is its own. -/
theorem encode_eq_weigh_bytes :
    4 ≤ (standard .w8).maxDimension ∧ 1 ≤ (standard .w8).maxDimension ∧
    (∃ e code, (standard .w8).get? 4 = some e ∧ e.Allows [1, -1, 0, 1] ∧
      encode .w8 (.int (.signed .w8))
        (List.map Word.toElement [1, -1, 0, 1]) = .ok code ∧
      code.toInt = weigh e.digitBounds [1, -1, 0, 1]) ∧
    encode .w8 (.int (.signed .w8)) [Word.toElement (-1)] = .ok (-1) := by
  have hmax := maxDimension_standard_w8
  have hfour : 4 ≤ (standard .w8).maxDimension := by omega
  have hone : 1 ≤ (standard .w8).maxDimension := by omega
  obtain ⟨e, _, he, hdim, _, _, _, hcode, _⟩ := encode_eq_weigh .w8 hfour
  obtain ⟨e₁, _, he₁, hdim₁, _, _, _, _, hself⟩ := encode_eq_weigh .w8 hone
  have ha : e.Allows [1, -1, 0, 1] :=
    (lawful_standard .w8 4 e he).2.allows_of_abs_le_one hdim.symm (by decide)
  have ha₁ : e₁.Allows [-1] :=
    (lawful_standard .w8 1 e₁ he₁).2.allows_of_abs_le_one hdim₁.symm (by decide)
  obtain ⟨code, hencode, _, hsum, _⟩ := hcode _ ha
  exact ⟨hfour, hone, ⟨e, code, he, ha, hencode, hsum⟩, hself rfl _ ha₁⟩

end KroneckerCode

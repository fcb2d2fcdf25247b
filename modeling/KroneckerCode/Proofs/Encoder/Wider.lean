import KroneckerCode.Proofs.Encoder.Elements
import KroneckerCode.Proofs.Limits.Wider

/-!
# Wider words encode what narrower ones do

A vector that is within the bounds of one size is within those of a wider one,
and its components are words there as well, since a bound is a word. So whatever
elements have a code in the narrower words have one in the wider words, if not
the same.
-/

namespace KroneckerCode

open Limits

variable {s s' : WordSize}

namespace Limits.Entry

/-- A vector within the narrower bounds has its components in the wider size. -/
theorem AtMost.exists_allows {e : Entry s} {e' : Entry s'} (h : e.AtMost e')
    {v : List (Word s)} (ha : e.Allows v) :
    ∃ v' : List (Word s'), v'.map Word.toInt = v.map Word.toInt ∧
      e'.Allows v' := by
  have hbounds := h.bounds
  rw [Allows] at ha
  simp only [Allows]
  generalize e.bounds = bs at hbounds ha
  generalize e'.bounds = bs' at hbounds ⊢
  induction hbounds generalizing v with
  | nil =>
      rw [List.forall₂_nil_left_iff] at ha
      exact ⟨[], by rw [ha]; rfl, .nil⟩
  | @cons b b' _ _ hb _ ih =>
      cases ha with
      | @cons _ n _ ns hn hns =>
          obtain ⟨ns', hmap, hns'⟩ := ih hns
          have hholds : s'.Holds n.toInt :=
            b'.holds_toInt.of_abs_le (by omega) (by omega)
          have hword := Word.toInt_ofInt hholds
          refine ⟨Word.ofInt n.toInt :: ns', ?_, .cons ?_ hns'⟩
          · rw [List.map_cons, List.map_cons, hword, hmap]
          · rw [hword]
            omega

end Limits.Entry

theorem SameNumbers.of_map_toInt {t : ElementType} {xs : List (Element t)}
    {ws : List (Word s)} {ws' : List (Word s')} (h : SameNumbers t xs ws)
    (hmap : ws'.map Word.toInt = ws.map Word.toInt) : SameNumbers t xs ws' := by
  rw [sameNumbers_iff, hmap, ← sameNumbers_iff]
  exact h

/-- The standard tables of two sizes. -/
theorem get?_standard_atMost (hs : s.maxValue ≤ s'.maxValue) {m : Nat}
    {e : Entry s} (he : (standard s).get? m = some e) :
    ∃ e', (standard s').get? m = some e' ∧ e.AtMost e' ∧
      (s.maxValue = s'.maxValue → e.Same e') := by
  have hvalid : ({} : Config).validate = .ok () := rfl
  have hp := Search.Progressive.of_valid hvalid (Draws.within_uniform 5)
  rw [standard_eq_searchAll] at he
  have hm := (isSome_get?_searchAll_iff _ _ m).1 (Option.isSome_of_eq_some he)
  obtain ⟨e₁, e', he₁, he', h⟩ := get?_searchAll_atMost hp hs hm
  obtain rfl : e₁ = e := Option.some.inj (he₁.symm.trans he)
  exact ⟨e', by rw [standard_eq_searchAll]; exact he', h⟩

theorem exists_encode_of_wider (hs : s.maxValue ≤ s'.maxValue)
    {t : ElementType} {xs : List (Element t)} {code : Word s}
    (h : encode s t xs = .ok code) : ∃ code', encode s' t xs = .ok code' := by
  obtain ⟨e, ws, he, hsame, ha⟩ := allows_of_encode h
  obtain ⟨e', he', hwider, _⟩ := get?_standard_atMost hs he
  obtain ⟨ws', hmap, ha'⟩ := hwider.exists_allows ha
  exact exists_encode_iff.2 ⟨e', ws', he', hsame.of_map_toInt hmap, ha'⟩

/-- With greater words nothing is lost. Whatever the draws, a dimension that is
found for the narrower size is found for the wider one with bounds, a greatest
code and a range of codes that are nowhere below, and sizes with the same
greatest word find the same. So it is in the standard tables, and all elements
that are encoded in the narrower size are encoded in the wider one. -/
theorem wider_words_lose_nothing {s s' : WordSize}
    (hs : s.maxValue ≤ s'.maxValue) :
    (∀ {σ : Type} (dice : Nat → Draws σ) (config : Config) (m : Nat),
      config.validate = .ok () →
      (dice config.percent).Within config.percent →
      (Nat.pow 3 m : Int) ≤ s.maxValue →
      ∃ (e : Entry s) (e' : Entry s'),
        findWith dice s m config = .ok (some e) ∧
        findWith dice s' m config = .ok (some e') ∧
        e.AtMost e' ∧ (s.maxValue = s'.maxValue → e.Same e')) ∧
    (∀ m (e : Entry s), (standard s).get? m = some e →
      ∃ e', (standard s').get? m = some e' ∧ e.AtMost e' ∧
        (s.maxValue = s'.maxValue → e.Same e')) ∧
    ∀ (t : ElementType) (xs : List (Element t)) (code : Word s),
      encode s t xs = .ok code → ∃ code', encode s' t xs = .ok code' := by
  refine ⟨?_, fun m e he => get?_standard_atMost hs he,
    fun t xs code h => exists_encode_of_wider hs h⟩
  intro σ dice config m hv hd hm
  obtain ⟨e, e', he, he', h⟩ := get?_searchAll_atMost
    (Search.Progressive.of_valid hv hd) hs hm
  refine ⟨e, e', ?_, ?_, h⟩
  · rw [findWith_eq_get? dice s m hv, he]
  · rw [findWith_eq_get? dice s' m hv, he']

/-- Four bytes are encoded in words of sixteen bits, and words of 64 bits have
the limits that pointers have. -/
theorem wider_words_lose_nothing_bytes :
    WordSize.w8.maxValue ≤ WordSize.w16.maxValue ∧
    (∃ code code', encode .w8 (.int (.signed .w8))
        (List.map Word.toElement [1, -1, 0, 1]) = .ok code ∧
      encode .w16 (.int (.signed .w8))
        (List.map Word.toElement [1, -1, 0, 1]) = .ok code') ∧
    WordSize.w64.maxValue = WordSize.pointer.maxValue ∧
    ∃ (e : Entry .w64) (e' : Entry .pointer),
      findWith (fun _ => constantDraws (-49)) .w64 3 ⟨49, 2⟩ = .ok (some e) ∧
      findWith (fun _ => constantDraws (-49)) .pointer 3 ⟨49, 2⟩ =
        .ok (some e') ∧ e.AtMost e' ∧ e.Same e' := by
  have hm : 4 ≤ (standard .w8).maxDimension :=
    Nat.le_of_eq maxDimension_standard_w8.symm
  obtain ⟨entry, he⟩ := get?_standard_of_le hm
  obtain ⟨hdim, hlawful⟩ := lawful_standard .w8 4 entry he
  have ha : entry.Allows [1, -1, 0, 1] :=
    hlawful.allows_of_abs_le_one hdim.symm (by decide)
  obtain ⟨code, hcode, _⟩ := encode_of_allows he ha
  have hbytes : WordSize.w8.maxValue ≤ WordSize.w16.maxValue := by decide
  obtain ⟨_, _, hencode⟩ := wider_words_lose_nothing hbytes
  obtain ⟨code', hcode'⟩ := hencode _ _ code hcode
  have hsame : WordSize.w64.maxValue = WordSize.pointer.maxValue := by decide
  have hd : (constantDraws (-49)).Within 49 := by
    intro _
    show (-49 : Int) ≤ -49 ∧ (-49 : Int) ≤ 49
    decide
  obtain ⟨hfind, _⟩ := wider_words_lose_nothing (Int.le_of_eq hsame)
  obtain ⟨e, e', hfound, hfound', hmost, heq⟩ :=
    hfind (fun _ => constantDraws (-49)) ⟨49, 2⟩ 3 rfl hd (by decide)
  exact ⟨hbytes, ⟨code, code', hcode, hcode'⟩, hsame, e, e', hfound, hfound',
    hmost, heq hsame⟩

end KroneckerCode

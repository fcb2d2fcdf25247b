import KroneckerCode.Proofs.RoundTrip
import Mathlib.Order.Bounds.Basic
import Mathlib.Order.Lattice.Nat

/-!
# Codes order vectors by their last component

A component is worth more than all the components before it can make up for:
whatever two vectors have there, their ranks in front of it are less than one
place apart. So of two vectors the one with the smaller rank is found by looking
at their ends, and going forward only as long as the components are the same.
`rank_cons_lt_iff` is one step of that comparison. Taken to the end of the
vectors it is the lexicographic order, read backwards, and stopped at the last
component in which they differ it is the order of that component.

A code is a rank above the least code, so codes compare like ranks, and the
machine compares codes like the integers they denote.
-/

namespace KroneckerCode

open MixedRadix Limits

variable {s : WordSize}

/-! ## The order of ranks -/

theorem lex_concat_iff {α : Type} {r : α → α → Prop} {as bs : List α} {a b : α}
    (hlen : as.length = bs.length) :
    List.Lex r (as ++ [a]) (bs ++ [b]) ↔
      List.Lex r as bs ∨ as = bs ∧ r a b := by
  induction as generalizing bs with
  | nil =>
      obtain rfl := List.length_eq_zero_iff.1 hlen.symm
      simp
  | cons c as ih =>
      obtain ⟨d, bs, rfl⟩ := List.exists_cons_of_length_eq_add_one hlen.symm
      simp only [List.length_cons, Nat.add_right_cancel_iff] at hlen
      rw [List.cons_append, List.cons_append, List.cons_lex_cons_iff,
        List.cons_lex_cons_iff, ih hlen, List.cons.injEq, and_or_left, or_assoc,
        and_assoc]

namespace MixedRadix

variable {bs : List Nat} {us vs : List Int}

/-- The components behind the first decide, unless they are the same. -/
theorem rank_cons_lt_iff {b : Nat} {u v : Int}
    (hu : Allows (b :: bs) (u :: us)) (hv : Allows (b :: bs) (v :: vs)) :
    rank (b :: bs) (u :: us) < rank (b :: bs) (v :: vs) ↔
      rank bs us < rank bs vs ∨ us = vs ∧ u < v := by
  obtain ⟨hu, hus⟩ := hu
  obtain ⟨hv, hvs⟩ := hv
  -- one place more outweighs any digit below it
  have hplace : ∀ {p q : Nat}, p < q → base b * p + base b ≤ base b * q :=
    fun hpq => Nat.mul_le_mul_left (base b) hpq
  rw [← rank_inj hus hvs, rank, rank]
  have hbase : base b = 2 * b + 1 := rfl
  rcases Nat.lt_trichotomy (rank bs us) (rank bs vs) with hlt | heq | hgt
  · have hle := hplace hlt
    exact iff_of_true (by omega) (Or.inl hlt)
  · rw [heq]
    omega
  · have hle := hplace hgt
    exact iff_of_false (by omega) (by omega)

/-- Ranks are in the lexicographic order from the last component to the first. -/
theorem rank_lt_iff_lex (hu : Allows bs us) (hv : Allows bs vs) :
    rank bs us < rank bs vs ↔
      List.Lex (· < ·) us.reverse vs.reverse := by
  induction bs generalizing us vs with
  | nil =>
      rw [List.length_eq_zero_iff.1 hu.length_eq,
        List.length_eq_zero_iff.1 hv.length_eq]
      simp
  | cons b bs ih =>
      obtain ⟨u, us, rfl⟩ := List.exists_cons_of_length_eq_add_one hu.length_eq
      obtain ⟨v, vs, rfl⟩ := List.exists_cons_of_length_eq_add_one hv.length_eq
      have hlen : us.reverse.length = vs.reverse.length := by
        rw [List.length_reverse, List.length_reverse, hu.2.length_eq,
          hv.2.length_eq]
      rw [rank_cons_lt_iff hu hv, ih hu.2 hv.2, List.reverse_cons,
        List.reverse_cons, lex_concat_iff hlen, List.reverse_inj]

/-- Ranks are in the order of the last components that differ. -/
theorem rank_lt_iff_of_isGreatest (hu : Allows bs us) (hv : Allows bs vs)
    {j : Nat} (hj : IsGreatest {i | us[i]? ≠ vs[i]?} j) :
    ∃ a b, us[j]? = some a ∧ vs[j]? = some b ∧
      (rank bs us < rank bs vs ↔ a < b) := by
  induction bs generalizing us vs j with
  | nil =>
      have hsame : us = vs := by
        rw [List.length_eq_zero_iff.1 hu.length_eq,
          List.length_eq_zero_iff.1 hv.length_eq]
      exact absurd (congrArg (·[j]?) hsame) hj.1
  | cons b bs ih =>
      obtain ⟨u, us, rfl⟩ := List.exists_cons_of_length_eq_add_one hu.length_eq
      obtain ⟨v, vs, rfl⟩ := List.exists_cons_of_length_eq_add_one hv.length_eq
      rw [rank_cons_lt_iff hu hv]
      cases j with
      | zero =>
          have hsame : us = vs := by
            refine List.ext_getElem? fun i => ?_
            by_contra hdiffer
            exact Nat.not_succ_le_zero i
              (mem_upperBounds.1 hj.2 (i + 1) hdiffer)
          refine ⟨u, v, rfl, rfl, ?_⟩
          rw [hsame]
          simp
      | succ j =>
          have hdiffer : us ≠ vs := fun hsame =>
            hj.1 (congrArg (·[j]?) hsame)
          have hgreatest : IsGreatest {i | us[i]? ≠ vs[i]?} j :=
            ⟨hj.1, fun i hi =>
              Nat.le_of_succ_le_succ (mem_upperBounds.1 hj.2 (i + 1) hi)⟩
          obtain ⟨a, c, ha, hc, hiff⟩ := ih hu.2 hv.2 hgreatest
          refine ⟨a, c, ha, hc, ?_⟩
          rw [← hiff]
          exact or_iff_left fun h => hdiffer h.1

end MixedRadix

/-! ## The order of words -/

namespace Word

variable {v w : List (Word s)}

theorem lex_map_toInt_iff :
    List.Lex (· < ·) (v.map toInt) (w.map toInt) ↔
      List.Lex (· < ·) v w := by
  induction v generalizing w with
  | nil =>
      cases w with
      | nil => simp
      | cons b w => simp
  | cons a v ih =>
      cases w with
      | nil => simp
      | cons b w =>
          rw [List.map_cons, List.map_cons, List.cons_lex_cons_iff,
            List.cons_lex_cons_iff, ih, toInt_inj, lt_iff]

theorem getElem?_map_toInt_inj {i : Nat} :
    (v.map toInt)[i]? = (w.map toInt)[i]? ↔ v[i]? = w[i]? := by
  rw [List.getElem?_map, List.getElem?_map]
  exact (Option.map_injective fun _ _ => toInt_inj.1).eq_iff

end Word

/-- Two lists that differ have a last position in which they do. -/
theorem exists_isGreatest_of_ne {α : Type} {v w : List α} (hne : v ≠ w) :
    ∃ j : Nat, IsGreatest {i | v[i]? ≠ w[i]?} j := by
  have hnonempty : {i : Nat | v[i]? ≠ w[i]?}.Nonempty := by
    by_contra hempty
    refine hne (List.ext_getElem? fun i => ?_)
    by_contra hi
    exact hempty ⟨i, hi⟩
  have hbdd : BddAbove {i : Nat | v[i]? ≠ w[i]?} := by
    refine ⟨v.length + w.length, fun i hi => ?_⟩
    by_contra hlt
    refine hi ?_
    rw [List.getElem?_eq_none (by omega), List.getElem?_eq_none (by omega)]
  exact ⟨_, Nat.sSup_mem hnonempty hbdd, fun i hi => le_csSup hbdd hi⟩

/-! ## The order of codes -/

namespace Limits.Entry.Codes

variable {m : Nat} {e : Entry s} {u v : List (Word s)} {c d : Word s}

theorem lt_iff_rank (hc : e.Codes u c) (hd : e.Codes v d)
    (he : (standard s).get? m = some e) :
    c < d ↔ rank e.digitBounds (u.map Word.toInt) <
      rank e.digitBounds (v.map Word.toInt) := by
  rw [Word.lt_iff, hc.toInt_eq_rank he, hd.toInt_eq_rank he]
  omega

theorem lt_iff_lex (hc : e.Codes u c) (hd : e.Codes v d)
    (he : (standard s).get? m = some e) :
    c < d ↔ List.Lex (· < ·) u.reverse v.reverse := by
  have hl := (lawful_standard s m e he).2
  rw [hc.lt_iff_rank hd he, rank_lt_iff_lex (hl.allows_iff.1 hc.allows)
    (hl.allows_iff.1 hd.allows), ← List.map_reverse, ← List.map_reverse,
    Word.lex_map_toInt_iff]

theorem lt_iff_of_isGreatest (hc : e.Codes u c) (hd : e.Codes v d)
    (he : (standard s).get? m = some e) {j : Nat}
    (hj : IsGreatest {i | u[i]? ≠ v[i]?} j) :
    ∃ a b, u[j]? = some a ∧ v[j]? = some b ∧ (c < d ↔ a < b) := by
  have hl := (lawful_standard s m e he).2
  have hu := hl.allows_iff.1 hc.allows
  have hv := hl.allows_iff.1 hd.allows
  have hj' : IsGreatest
      {i | (u.map Word.toInt)[i]? ≠ (v.map Word.toInt)[i]?} j := by
    simpa only [ne_eq, Word.getElem?_map_toInt_inj] using hj
  obtain ⟨x, y, hx, hy, hiff⟩ := rank_lt_iff_of_isGreatest hu hv hj'
  rw [List.getElem?_map, Option.map_eq_some_iff] at hx hy
  obtain ⟨a, ha, rfl⟩ := hx
  obtain ⟨b, hb, rfl⟩ := hy
  exact ⟨a, b, ha, hb, (hc.lt_iff_rank hd he).trans hiff⟩

theorem eq_iff (hc : e.Codes u c) (hd : e.Codes v d) : c = d ↔ u = v := by
  constructor
  · rintro rfl
    exact Except.ok.inj (hc.decode_eq.symm.trans hd.decode_eq)
  · rintro rfl
    exact Except.ok.inj (hc.encode_eq.symm.trans hd.encode_eq)

end Limits.Entry.Codes

/-- The codes of two vectors that differ compare like the last components in
which they do. The vectors of two codes compare, from the last component to the
first, like the codes. -/
theorem code_order (s : WordSize) {m : Nat}
    (hm : m ≤ (standard s).maxDimension) :
    ∃ e, (standard s).get? m = some e ∧ e.dimension = m ∧
      (∀ u v : List (Word s), e.Allows u → e.Allows v → u ≠ v →
        ∃ c d j a b,
          encode s (.int (.signed s)) (u.map Word.toElement) = .ok c ∧
          encode s (.int (.signed s)) (v.map Word.toElement) = .ok d ∧
          IsGreatest {i : Nat | u[i]? ≠ v[i]?} j ∧
          u[j]? = some a ∧ v[j]? = some b ∧ (c < d ↔ a < b)) ∧
      (∀ c d : Word s, e.Contains c → e.Contains d →
        ∃ u v, decode c m = .ok u ∧ decode d m = .ok v ∧
          (c < d ↔ List.Lex (· < ·) u.reverse v.reverse) ∧
          (c = d ↔ u = v)) := by
  obtain ⟨e, he⟩ := get?_standard_of_le hm
  have hdim := (lawful_standard s m e he).1
  refine ⟨e, he, hdim, ?_, ?_⟩
  · intro u v hu hv hne
    obtain ⟨c, hc⟩ := exists_codes_of_allows he hu
    obtain ⟨d, hd⟩ := exists_codes_of_allows he hv
    obtain ⟨j, hj⟩ := exists_isGreatest_of_ne hne
    obtain ⟨a, b, ha, hb, hiff⟩ := hc.lt_iff_of_isGreatest hd he hj
    exact ⟨c, d, j, a, b, hc.encode_eq, hd.encode_eq, hj, ha, hb, hiff⟩
  · intro c d hc hd
    obtain ⟨u, hu⟩ := exists_codes_of_contains he hc
    obtain ⟨v, hv⟩ := exists_codes_of_contains he hd
    exact ⟨u, v, hdim ▸ hu.decode_eq, hdim ▸ hv.decode_eq,
      hu.lt_iff_lex hv he, hu.eq_iff hv⟩

/-- The last of four bytes outweighs all the others. -/
theorem code_order_four_bytes :
    4 ≤ (standard .w8).maxDimension ∧
    ∃ e, (standard .w8).get? 4 = some e ∧
      e.Allows [1, 1, 1, -1] ∧ e.Allows [-1, -1, -1, 0] ∧
      ∃ c d,
        encode .w8 (.int (.signed .w8))
          (List.map Word.toElement [1, 1, 1, -1]) = .ok c ∧
        encode .w8 (.int (.signed .w8))
          (List.map Word.toElement [-1, -1, -1, 0]) = .ok d ∧
        c < d := by
  have hm : 4 ≤ (standard .w8).maxDimension :=
    Nat.le_of_eq maxDimension_standard_w8.symm
  obtain ⟨e, he, hdim, h, _⟩ := code_order .w8 hm
  have hlawful := (lawful_standard .w8 4 e he).2
  have hu : e.Allows [1, 1, 1, -1] :=
    hlawful.allows_of_abs_le_one hdim.symm (by decide)
  have hv : e.Allows [-1, -1, -1, 0] :=
    hlawful.allows_of_abs_le_one hdim.symm (by decide)
  obtain ⟨c, d, j, a, b, hc, hd, hj, ha, hb, hiff⟩ := h _ _ hu hv (by decide)
  have hlast : j = 3 := by
    refine hj.unique ⟨by decide, fun i hi => ?_⟩
    by_contra hlt
    refine hi ?_
    rw [List.getElem?_eq_none (Nat.not_le.1 hlt),
      List.getElem?_eq_none (Nat.not_le.1 hlt)]
  subst hlast
  obtain rfl := Option.some.inj ha
  obtain rfl := Option.some.inj hb
  exact ⟨hm, e, he, hu, hv, c, d, hc, hd, hiff.2 (by decide)⟩

end KroneckerCode

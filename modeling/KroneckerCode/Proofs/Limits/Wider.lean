import KroneckerCode.Proofs.Limits.Progress

/-!
# Wider words have wider limits

The size of the words has no part in a step of the search: it only decides which
state is the first that does not fit. So for two sizes the search goes through
the same states, and for the narrower one it does not get farther
(`ExitsAt.le_of_wider`). As all numbers rise from state to state, the entry that
is found for the narrower size is nowhere above the other, and the other way
round too if the sizes have the same greatest word.
-/

namespace KroneckerCode.Limits

variable {σ : Type} {s s' : WordSize}

/-- No number of the first entry is above the one of the second. -/
structure Entry.AtMost (e : Entry s) (e' : Entry s') : Prop where
  bounds : List.Forall₂ (fun b b' => b.toInt ≤ b'.toInt) e.bounds e'.bounds
  hMax : e.hMax.toInt ≤ e'.hMax.toInt
  delta : e.delta.toInt ≤ e'.delta.toInt

/-- The words of the entries denote the same numbers. -/
structure Entry.Same (e : Entry s) (e' : Entry s') : Prop where
  bounds : e.bounds.map Word.toInt = e'.bounds.map Word.toInt
  hMin : e.hMin.toInt = e'.hMin.toInt
  hMax : e.hMax.toInt = e'.hMax.toInt
  delta : e.delta.toInt = e'.delta.toInt

theorem forall₂_toInt_iff {bs : List (Word s)} {bs' : List (Word s')} :
    List.Forall₂ (fun b b' => b.toInt ≤ b'.toInt) bs bs' ↔
      List.Forall₂ (· ≤ ·) (bs.map Word.toInt) (bs'.map Word.toInt) := by
  rw [List.forall₂_map_left_iff, List.forall₂_map_right_iff]

theorem Entry.Same.atMost {e : Entry s} {e' : Entry s'} (h : e.Same e') :
    e.AtMost e' := by
  refine ⟨?_, Int.le_of_eq h.hMax, Int.le_of_eq h.delta⟩
  rw [forall₂_toInt_iff, h.bounds]
  exact List.forall₂_refl _

theorem Entry.same_empty : (empty : Entry s).Same (empty : Entry s') := by
  have hzero : (0 : Word s).toInt = (0 : Word s').toInt := by
    rw [Word.toInt_zero, Word.toInt_zero]
  exact ⟨rfl, hzero, hzero, hzero⟩

theorem forall₂_le_of_lt {xs ys zs : List Nat}
    (h : List.Forall₂ (· ≤ ·) xs ys) (h' : List.Forall₂ (· < ·) ys zs) :
    List.Forall₂ (· ≤ ·) xs zs := by
  induction h generalizing zs with
  | nil =>
      rw [List.forall₂_nil_left_iff] at h' ⊢
      exact h'
  | cons hx _ ih =>
      cases h' with
      | cons hy hys =>
          exact .cons (Nat.le_of_lt (Nat.lt_of_le_of_lt hx hy)) (ih hys)

namespace Search

variable {draws : Draws σ} {growth : Nat}

namespace State

variable {st st' : State σ}

/-- Numbers that rise with every step have not fallen after some. -/
theorem Consistent.after_le (hp : Progressive draws growth)
    (h : st.Consistent) {j k : Nat} (hjk : j ≤ k) :
    List.Forall₂ (· ≤ ·) (st.after draws growth j).bounds
        (st.after draws growth k).bounds ∧
      (st.after draws growth j).hMax ≤ (st.after draws growth k).hMax := by
  induction k, hjk using Nat.le_induction with
  | base => exact ⟨List.forall₂_refl _, Nat.le_refl _⟩
  | succ k _ ih =>
      have hrise := (h.after hp k).1.rises_step hp
      rw [← after_succ] at hrise
      have hmax := hrise.hMax
      exact ⟨forall₂_le_of_lt ih.1 hrise.bounds, by omega⟩

/-- What does not fit in the wider words does not fit in the narrower ones. -/
theorem ExitsAt.le_of_wider (hp : Progressive draws growth)
    (h : st.Consistent) (hs : s.maxValue ≤ s'.maxValue) {k k' : Nat}
    (hk : st.ExitsAt draws growth s k) (hk' : st.ExitsAt draws growth s' k') :
    k ≤ k' := by
  by_contra hlt
  have hcons := (h.after hp k').1
  have hfits := hcons.isSome_entryIn?_iff.1 (hk.fits k' (Nat.not_le.1 hlt))
  have hfits' := hcons.isSome_entryIn?_iff.2 (Int.le_trans hfits hs)
  rw [hk'.exceeds] at hfits'
  cases hfits'

theorem atMost_of_entryIn? {e : Entry s} {e' : Entry s'}
    (he : st.entryIn? s = some e) (he' : st'.entryIn? s' = some e')
    (hbounds : List.Forall₂ (· ≤ ·) st.bounds st'.bounds)
    (hmax : st.hMax ≤ st'.hMax) : e.AtMost e' := by
  obtain ⟨hb, _, hhi, hd, _⟩ := Entry.ofBounds?_eq_some_iff.1 he
  obtain ⟨hb', _, hhi', hd', _⟩ := Entry.ofBounds?_eq_some_iff.1 he'
  refine ⟨?_, by omega, by omega⟩
  rw [forall₂_toInt_iff, hb, hb', List.forall₂_map_left_iff,
    List.forall₂_map_right_iff]
  exact hbounds.imp fun _ _ hle => Int.ofNat_le.2 hle

theorem same_of_entryIn? {e : Entry s} {e' : Entry s'}
    (he : st.entryIn? s = some e) (he' : st.entryIn? s' = some e') : e.Same e' := by
  obtain ⟨hb, hlo, hhi, hd, _⟩ := Entry.ofBounds?_eq_some_iff.1 he
  obtain ⟨hb', hlo', hhi', hd', _⟩ := Entry.ofBounds?_eq_some_iff.1 he'
  exact ⟨hb.trans hb'.symm, hlo.trans hlo'.symm, hhi.trans hhi'.symm,
    hd.trans hd'.symm⟩

end State

/-! ## Two searches -/

/-- What a search finds is the entry of the state before the first that does
not fit. -/
theorem exists_exit_of_run (hp : Progressive draws growth) {m : Nat}
    (hm : 1 ≤ m) {e : Entry s} (h : (run draws growth s m).best = some e) :
    ∃ k, (State.seed draws m).ExitsAt draws growth s (k + 1) ∧
      ((State.seed draws m).after draws growth k).entryIn? s = some e := by
  obtain ⟨k, hexit, hrun⟩ := exists_run_eq hp s hm
  rw [hrun] at h
  cases k with
  | zero => cases h
  | succ k => exact ⟨k, hexit, h⟩

/-- Two searches of a dimension differ in how far they get. -/
theorem run_atMost (hp : Progressive draws growth)
    (hs : s.maxValue ≤ s'.maxValue) {m : Nat} (hm : 1 ≤ m) {e : Entry s}
    {e' : Entry s'} (he : (run draws growth s m).best = some e)
    (he' : (run draws growth s' m).best = some e') :
    e.AtMost e' ∧ (s.maxValue = s'.maxValue → e.Same e') := by
  have hseed := State.consistent_seed draws hm
  obtain ⟨k, hexit, hentry⟩ := exists_exit_of_run hp hm he
  obtain ⟨k', hexit', hentry'⟩ := exists_exit_of_run hp hm he'
  have hle := hexit.le_of_wider hp hseed hs hexit'
  obtain ⟨hbounds, hmax⟩ := hseed.after_le hp (Nat.le_of_succ_le_succ hle)
  refine ⟨State.atMost_of_entryIn? hentry hentry' hbounds hmax, fun heq => ?_⟩
  have hge := hexit'.le_of_wider hp hseed (Int.le_of_eq heq.symm) hexit
  obtain rfl : k = k' := by omega
  exact State.same_of_entryIn? hentry hentry'

end Search

/-! ## Two tables -/

/-- Where the narrower words have limits for a dimension, the wider ones have
wider limits. -/
theorem get?_searchAll_atMost {draws : Draws σ} {growth : Nat}
    (hp : Search.Progressive draws growth) (hs : s.maxValue ≤ s'.maxValue)
    {m : Nat} (hm : (Nat.pow 3 m : Int) ≤ s.maxValue) :
    ∃ (e : Entry s) (e' : Entry s'),
      (searchAll draws growth s).1.get? m = some e ∧
      (searchAll draws growth s').1.get? m = some e' ∧
      e.AtMost e' ∧ (s.maxValue = s'.maxValue → e.Same e') := by
  obtain ⟨e, he⟩ := Option.isSome_iff_exists.1
    ((isSome_get?_searchAll_iff draws growth m).2 hm)
  obtain ⟨e', he'⟩ := Option.isSome_iff_exists.1
    ((isSome_get?_searchAll_iff draws growth m).2 (Int.le_trans hm hs))
  refine ⟨e, e', he, he', ?_⟩
  rcases Nat.eq_zero_or_pos m with rfl | hpos
  · rw [get?_searchAll_zero, Option.some.injEq] at he he'
    rw [← he, ← he']
    exact ⟨Entry.same_empty.atMost, fun _ => Entry.same_empty⟩
  · rw [get?_searchAll draws growth hpos] at he he'
    exact Search.run_atMost hp hs hpos he he'

end KroneckerCode.Limits

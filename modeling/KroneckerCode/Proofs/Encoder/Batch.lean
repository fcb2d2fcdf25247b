import KroneckerCode.Encoder.Batch
import KroneckerCode.Proofs.Encoder.State
import KroneckerCode.Proofs.Limits.Table

/-!
# Encoding a vector of words

Words need no conversion, so encoding a vector of them is a run of pushes. Each
push of an allowed vector is accepted, the encoder ends up full, and its code is
the least code plus the rank of the vector (`encode_of_allows`).
-/

namespace KroneckerCode

open MixedRadix Limits

variable {s : WordSize}

/-- A word as a component of its own type. -/
def Word.toElement (w : Word s) : Element (.int (.signed s)) := w.toRanged

namespace Encoder

variable {enc : Encoder s} {taken : List (Word s)}

theorem castComponent_toElement (index : Nat) (n : Word s) :
    castComponent s (.int (.signed s)) index n.toElement = .ok n := by
  have hranged : Cast.toRanged? (.signed s) (.int (.signed s)) n.toElement =
      some n.toRanged := Ranged.ofInt?_eq_some_iff.2 rfl
  simp only [castComponent, Cast.toWord, Cast.toRanged, hranged]
  show Except.ok n.toRanged.toWord = _
  rw [Word.toWord_toRanged]

theorem ofSize_eq {size : Nat} {e : Entry s}
    (he : (standard s).get? size = some e) :
    ofSize s size = .ok (start e) := by
  rw [ofSize, Table.entry_eq_ok_iff.2 he]
  rfl

/-- The next component of an allowed vector is within the bound of its
position. -/
theorem Carries.next_allowed {rest : List (Word s)} {n : Word s}
    (h : enc.Carries taken) (ha : enc.entry.Allows (taken ++ n :: rest)) :
    ∃ b, enc.entry.bounds[enc.index]? = some b ∧
      -b.toInt ≤ n.toInt ∧ n.toInt ≤ b.toInt := by
  have hlen := h.length_taken
  have hi : enc.index < (taken ++ n :: rest).length := by
    rw [List.length_append, List.length_cons]
    omega
  have hk : enc.index < enc.entry.bounds.length := by
    rw [List.Forall₂.length_eq ha]
    exact hi
  have hget : (taken ++ n :: rest)[enc.index] = n := by
    simp only [← hlen, Nat.le_refl, List.getElem_append_right,
      Nat.sub_self, List.getElem_cons_zero]
  have hn := List.Forall₂.get ha hk hi
  rw [List.get_eq_getElem, List.get_eq_getElem, hget] at hn
  exact ⟨_, List.getElem?_eq_getElem hk, hn⟩

/-- An encoder that meets the rest of an allowed vector takes all of it. -/
theorem Carries.pushList {rest : List (Word s)} (h : enc.Carries taken)
    (ha : enc.entry.Allows (taken ++ rest)) (index : Nat) :
    ∃ enc', enc.pushList (.int (.signed s)) index
        (rest.map Word.toElement) = .ok enc' ∧
      enc'.entry = enc.entry ∧ enc'.Carries (taken ++ rest) := by
  induction rest generalizing enc taken index with
  | nil => exact ⟨enc, rfl, rfl, by rw [List.append_nil]; exact h⟩
  | cons n rest ih =>
      obtain ⟨b, hb, hn⟩ := h.next_allowed ha
      have hpush := push_of_bound h.lawful hb n
      have hstep := h.accept hb hn
      rw [if_pos hn] at hpush
      rw [List.append_cons] at ha ⊢
      obtain ⟨enc', hrun, hentry, hcarries⟩ := ih hstep ha (index + 1)
      refine ⟨enc', ?_, hentry, hcarries⟩
      rw [List.map_cons, Encoder.pushList, castComponent_toElement]
      show (enc.push n).bind _ = _
      rw [hpush]
      exact hrun

end Encoder

/-- The code of an allowed vector is its rank, counted from the least code. -/
theorem encode_of_allows {e : Entry s} {v : List (Word s)}
    (he : (standard s).get? v.length = some e) (ha : e.Allows v) :
    ∃ code, encode s (.int (.signed s)) (v.map Word.toElement) = .ok code ∧
      code.toInt = rank e.digitBounds (v.map Word.toInt) + e.hMin.toInt := by
  obtain ⟨hdim, hlawful⟩ := lawful_standard s _ e he
  have hstart := Encoder.carries_start hlawful
  obtain ⟨enc, hrun, hentry, hcarries⟩ := hstart.pushList ha 0
  have hfull : enc.index = enc.size := by
    rw [← hcarries.length_taken, Encoder.size, hentry]
    exact hdim.symm
  obtain ⟨code, hget, hcode⟩ := hcarries.get_eq hfull
  rw [hentry] at hcode
  refine ⟨code, ?_, hcode⟩
  rw [encode, List.length_map, Encoder.ofSize_eq he]
  show ((Encoder.start e).pushList _ 0 _).bind Encoder.get = _
  rw [hrun]
  exact hget

end KroneckerCode

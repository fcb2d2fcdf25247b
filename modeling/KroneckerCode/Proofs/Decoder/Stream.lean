import KroneckerCode.Proofs.Decoder.Batch
import KroneckerCode.Proofs.Decoder.Session

/-!
# A decoder streams the vector of its code

The vector that a code decodes to at once is also the one that comes out of a
decoder call by call, whether its components are pulled, iterated, left out or
taken in slices. `Stands` says so of a decoder that has some components behind
it, and of every call that may come next.

The number behind is counted by the calls alone, so it says which answer is due
without running a decoder. Where a call does not raise it, at the end of the
vector or because the call only asks, the decoder is afterwards the very same,
place included, and there is no way to run past the end. Copies that are made on
the way go on alone: in a row of them, each stands where its own calls led it.
-/

namespace KroneckerCode

open Limits

variable {s : WordSize}

namespace Decoder

variable {dec : Decoder s} {v : List (Word s)} {k : Nat}

/-- A decoder of the vector answers as one that has `k` components behind it. -/
structure Stands (dec : Decoder s) (v : List (Word s)) (k : Nat) : Prop where
  le_length : k ≤ v.length
  size_eq : dec.size = v.length
  index_eq : dec.index = k
  remaining_eq : dec.remaining = v.length - k
  answer_eq : ∀ c, (dec.call c).1 = c.reply v k
  keeps : ∀ c : Call, c.behind v.length k = k → (dec.call c).2 = dec
  /-- To collect is to ask for the next component until there is none. -/
  takeAll_eq : ∀ n, v.length - k ≤ n → dec.takeAll = dec.take n
  next?_takeAll : dec.takeAll.2.next? = none

theorem Gives.stands_seek (h : dec.Gives v) (hk : k ≤ dec.size) :
    (dec.seek k).Stands v k := by
  have hlen := h.length_eq
  have hcall := h.call_seek hk
  refine {
    le_length := hlen ▸ hk
    size_eq := hlen.symm
    index_eq := rfl
    remaining_eq := hlen ▸ remaining_seek dec k
    answer_eq := ?_
    keeps := ?_
    takeAll_eq := ?_
    next?_takeAll := ?_ }
  · intro c
    rw [hcall]
  · intro c hbehind
    rw [hcall, ← hlen, hbehind]
  · intro n hn
    rw [h.takeAll_seek hk, h.take_seek hk, Nat.min_eq_right (by omega),
      List.take_of_length_le (by rw [List.length_drop]; exact hn)]
  · rw [h.takeAll_seek hk, h.next?_seek (Nat.le_refl _), ← hlen,
      List.getElem?_eq_none (Nat.le_refl _)]
    rfl

end Decoder

/-- Whatever calls are made on a decoder for a code, its answers are read off
the vector of that code at the component that the calls lead to, and so are
those of its copies. -/
theorem decoder_sessions {code : Word s} {size : Nat} {dec : Decoder s}
    (hdec : Decoder.ofCode code size = .ok dec) :
    ∃ v, decode code size = .ok v ∧ v.length = size ∧
      (∀ calls, (dec.after calls).Stands v (Decoder.Call.consumed size calls) ∧
        (∀ c, dec.session (calls ++ [c]) =
          dec.session calls ++ [(dec.after calls).call c])) ∧
      ∀ moves, List.Forall₂ (fun copy k => copy.Stands v k)
        (dec.copies moves) (Decoder.Call.consumedEach size moves) := by
  obtain ⟨e, he, hc, rfl⟩ := Decoder.exists_entry_of_ofCode hdec
  obtain ⟨hdim, hlawful⟩ := lawful_standard s size e he
  have hsplits := Decoder.splits_start hlawful hc
  obtain ⟨v, hgives, _⟩ := hsplits.exists_gives
  have hsize : (Decoder.start e code).size = size := hdim
  refine ⟨v, decode_of_gives he hc hgives, hgives.length_eq.trans hsize, ?_, ?_⟩
  · intro calls
    obtain ⟨hafter, hle⟩ := hgives.after_seek (Nat.zero_le _) calls
    rw [hsplits.seek_zero] at hafter
    have hstands := hgives.stands_seek hle
    rw [← hafter, hsize] at hstands
    exact ⟨hstands, fun c => Decoder.session_concat _ calls c⟩
  · intro moves
    have hcopies := hgives.copies_seek moves
    rw [hsplits.seek_zero, hsize] at hcopies
    refine hcopies.imp ?_
    rintro _ k ⟨hk, rfl⟩
    exact hgives.stands_seek (hsize.symm ▸ hk)

/-- Zero is a code of four bytes. Three of them are behind a decoder that has
given the first and left out the second, and behind the last there is none. A
copy that leaves out the second does not move the decoder it was made from. -/
theorem decoder_sessions_four_bytes :
    ∃ dec : Decoder .w8, Decoder.ofCode 0 4 = .ok dec ∧
      ∃ v, decode (0 : Word .w8) 4 = .ok v ∧ v.length = 4 ∧
        (dec.after [.pull, .nth 1]).Stands v 3 ∧
        ((dec.after [.nth 9]).call .pull).1 = .refused (.tooManyPulls 4) ∧
        List.Forall₂ (fun copy k => copy.Stands v k)
          (dec.copies [.call 0 .pull, .copy 0, .call 1 (.nth 1)]) [1, 3] := by
  obtain ⟨e, he⟩ := get?_standard_of_le
    (Nat.le_of_eq maxDimension_standard_w8.symm)
  have hdec := Decoder.ofCode_of_contains he
    (lawful_standard .w8 4 e he).2.contains_zero
  obtain ⟨v, hdecode, hlen, h⟩ := decoder_sessions hdec
  have hend := (h.1 [.nth 9]).1.answer_eq .pull
  have hfour : Decoder.Call.consumed 4 [.nth 9] = v.length := hlen.symm
  rw [hfour, Decoder.Call.reply, List.getElem?_eq_none (Nat.le_refl _), hlen]
    at hend
  exact ⟨_, hdec, v, hdecode, hlen, (h.1 [.pull, .nth 1]).1, hend, h.2 _⟩

end KroneckerCode

import KroneckerCode.Proofs.Encoder.Batch
import KroneckerCode.Proofs.Encoder.Session

/-!
# A stream of components is encoded like a vector

An encoder may be offered anything, in any order of calls: components within
their bounds and outside of them, components past the last one, a question for
the code that comes too early. `Stands` says how it answers, and the only thing
the answers depend on is the list of components that were accepted so far. How
many there are decides whether a component is one too many, or the code is asked
for too early; the bound at their number decides about the next component; and
once there is one for every bound, the code is that of the whole list, encoded
at once.

So a refused call cannot be noticed afterwards. That is stronger than it has to
be said for the numbers alone: the encoder behind it is the very same.
-/

namespace KroneckerCode

open MixedRadix Limits

variable {s : WordSize}

namespace Encoder

variable {enc : Encoder s} {e : Entry s} {taken : List (Word s)} {b : Word s}

/-- An encoder of the entry answers as one that has taken these components. -/
structure Stands (enc : Encoder s) (e : Entry s) (taken : List (Word s)) :
    Prop where
  pushed_eq : enc.pushed = taken.length
  length_le : taken.length ≤ e.dimension
  tooMany_iff : ∀ n, enc.call (.push n) =
    (.refused (.tooManyPushes e.dimension), enc) ↔ taken.length = e.dimension
  outOfRange_iff : ∀ n b, e.bounds[taken.length]? = some b →
    (enc.call (.push n) =
        (.refused (.componentOutOfRange taken.length n.toInt b.toInt), enc) ↔
      n.toInt < -b.toInt ∨ b.toInt < n.toInt)
  accepted_iff : ∀ n b, e.bounds[taken.length]? = some b →
    ((enc.call (.push n)).1 = .accepted ↔
      -b.toInt ≤ n.toInt ∧ n.toInt ≤ b.toInt)
  push_refused : ∀ n err, (enc.call (.push n)).1 = .refused err →
    (enc.call (.push n)).2 = enc
  get_keeps : (enc.call .get).2 = enc
  notEnough_iff : (enc.call .get).1 =
    .refused (.notEnoughPushes taken.length e.dimension) ↔
      taken.length < e.dimension
  code_eq : taken.length = e.dimension →
    ∃ code, encode s (.int (.signed s)) (taken.map Word.toElement) = .ok code ∧
      (enc.call .get).1 = .code code

/-! ## One call -/

theorem call_push_of_none (hb : enc.entry.bounds[enc.index]? = none)
    (n : Word s) :
    enc.call (.push n) = (.refused (.tooManyPushes enc.size), enc) := by
  rw [call, push_of_none hb]

theorem call_push_of_bound (hl : enc.entry.Lawful)
    (hb : enc.entry.bounds[enc.index]? = some b) (n : Word s) :
    enc.call (.push n) =
      if -b.toInt ≤ n.toInt ∧ n.toInt ≤ b.toInt then
        (.accepted, enc.accept b n)
      else
        (.refused (.componentOutOfRange enc.index n.toInt b.toInt), enc) := by
  rw [call, push_of_bound hl hb]
  split_ifs <;> rfl

theorem call_get (enc : Encoder s) :
    enc.call .get =
      if enc.index < enc.size then
        (.refused (.notEnoughPushes enc.index enc.size), enc)
      else
        (.code (enc.value + enc.entry.hMin), enc) := by
  rw [call, get]
  split_ifs <;> rfl

/-- A full encoder has the code that its components have as a vector. -/
theorem Carries.get_eq_encode (h : enc.Carries taken)
    (he : (standard s).get? taken.length = some enc.entry) :
    ∃ code, encode s (.int (.signed s)) (taken.map Word.toElement) = .ok code ∧
      enc.get = .ok code := by
  obtain ⟨hdim, hlawful⟩ := lawful_standard s _ _ he
  have hfull : enc.index = enc.size := by
    rw [← h.length_taken, ← hdim]
    rfl
  have hallows : enc.entry.Allows taken := by
    have hpassed := h.allowed
    rw [passed_of_full hfull] at hpassed
    exact hlawful.allows_iff.2 hpassed
  obtain ⟨code, hget, hcode⟩ := h.get_eq hfull
  obtain ⟨code', hencode, hcode'⟩ := encode_of_allows he hallows
  have hsame : code' = code := Word.toInt_inj.1 (hcode'.trans hcode.symm)
  exact ⟨code, hsame ▸ hencode, hget⟩

theorem Carries.stands (h : enc.Carries taken) (hentry : enc.entry = e)
    {size : Nat} (he : (standard s).get? size = some e) :
    enc.Stands e taken := by
  subst hentry
  have hlen := h.length_taken
  have hle : taken.length ≤ enc.entry.dimension := hlen ▸ h.index_le
  have hnone : enc.entry.bounds[enc.index]? = none ↔
      taken.length = enc.entry.dimension := by
    rw [List.getElem?_eq_none_iff, ← hlen]
    exact ⟨fun hge => Nat.le_antisymm hle hge, fun heq => Nat.le_of_eq heq.symm⟩
  have hget := call_get enc
  refine {
    pushed_eq := hlen.symm
    length_le := hle
    tooMany_iff := ?_
    outOfRange_iff := ?_
    accepted_iff := ?_
    push_refused := ?_
    get_keeps := ?_
    notEnough_iff := ?_
    code_eq := ?_ }
  · intro n
    rw [← hnone]
    cases hb : enc.entry.bounds[enc.index]? with
    | none => exact iff_of_true (call_push_of_none hb n) rfl
    | some b =>
        rw [call_push_of_bound h.lawful hb]
        split_ifs <;> simp
  · intro n b hb
    rw [hlen] at hb ⊢
    rw [call_push_of_bound h.lawful hb]
    split_ifs with hn
    · refine iff_of_false (fun h => ?_) (by omega)
      cases congrArg Prod.fst h
    · exact iff_of_true rfl (by omega)
  · intro n b hb
    rw [hlen] at hb
    rw [call_push_of_bound h.lawful hb]
    split_ifs with hn
    · exact iff_of_true rfl hn
    · exact iff_of_false (fun h => by cases h) hn
  · intro n err hrefused
    cases hb : enc.entry.bounds[enc.index]? with
    | none => rw [call_push_of_none hb]
    | some b =>
        rw [call_push_of_bound h.lawful hb] at hrefused ⊢
        split_ifs at hrefused ⊢
        rfl
  · rw [hget]
    split_ifs <;> rfl
  · rw [hget, hlen]
    show _ ↔ enc.index < enc.size
    split_ifs with hlt
    · exact iff_of_true rfl hlt
    · simp [hlt]
  · intro hfull
    have hdim := (lawful_standard s size enc.entry he).1
    rw [← hdim, ← hfull] at he
    obtain ⟨code, hencode, hcode⟩ := h.get_eq_encode he
    refine ⟨code, hencode, ?_⟩
    rw [call, hcode]

end Encoder

/-! ## Every session -/

/-- Whatever calls are made on an encoder for a dimension of the table, its
answers are those of the components that it accepted among them. -/
theorem encoder_sessions (s : WordSize) {size : Nat}
    (hsize : size ≤ (standard s).maxDimension) :
    ∃ e enc, (standard s).get? size = some e ∧ e.dimension = size ∧
      Encoder.ofSize s size = .ok enc ∧
      ∀ calls, (enc.after calls).Stands e (enc.accepted calls) ∧
        ∀ c, enc.session (calls ++ [c]) =
          enc.session calls ++ [(enc.after calls).call c] := by
  obtain ⟨e, he⟩ := get?_standard_of_le hsize
  obtain ⟨hdim, hlawful⟩ := lawful_standard s size e he
  refine ⟨e, Encoder.start e, he, hdim, Encoder.ofSize_eq he, ?_⟩
  intro calls
  obtain ⟨hentry, hcarries⟩ :=
    (Encoder.carries_start hlawful).after_accepted calls
  exact ⟨hcarries.stands hentry he,
    fun c => Encoder.session_concat _ calls c⟩

/-- An encoder for four bytes, which has refused a question and a component. -/
theorem encoder_sessions_four_bytes :
    4 ≤ (standard .w8).maxDimension ∧
    ∃ e enc, (standard .w8).get? 4 = some e ∧
      Encoder.ofSize .w8 4 = .ok enc ∧
      (enc.call .get).1 = .refused (.notEnoughPushes 0 4) ∧
      (enc.after [.get, .push 1, .push 127]).Stands e
        (enc.accepted [.get, .push 1, .push 127]) := by
  have hsize : 4 ≤ (standard .w8).maxDimension :=
    Nat.le_of_eq maxDimension_standard_w8.symm
  obtain ⟨e, enc, he, hdim, henc, h⟩ := encoder_sessions .w8 hsize
  have hstart := (h []).1.notEnough_iff
  rw [hdim] at hstart
  exact ⟨hsize, e, enc, he, henc, hstart.2 (Nat.succ_pos 3), (h _).1⟩

end KroneckerCode

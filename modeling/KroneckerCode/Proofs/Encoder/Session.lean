import KroneckerCode.Encoder.Session
import KroneckerCode.Proofs.Encoder.State

/-!
# What a session with an encoder keeps

All that a call can do to an encoder is to have components taken, one after the
other: a call that is refused, and one that only asks, leaves the encoder as it
was. `accepted` lists the components that a session has had taken. What one
accepted component keeps, of the encoder and of that list together, is kept by
every call and by every session (`after_induction`). The meaning of the state is
such a thing.
-/

namespace KroneckerCode.Encoder

open Limits

variable {s : WordSize} {enc enc' : Encoder s} {n : Word s}
  {taken : List (Word s)}

/-- The encoder after a list of calls. -/
def after (enc : Encoder s) (calls : List (Call s)) : Encoder s :=
  calls.foldl (fun enc c => (enc.call c).2) enc

/-- The components that are taken when these are offered until one is refused. -/
def acceptedWhile (enc : Encoder s) : List (Word s) → List (Word s)
  | [] => []
  | n :: ns =>
    match enc.push n with
    | .ok enc => n :: acceptedWhile enc ns
    | .error _ => []

/-- The components that a call has had taken. A copy takes nothing for the
encoder it was made from. -/
def acceptedBy (enc : Encoder s) : Call s → List (Word s)
  | .push n => enc.acceptedWhile [n]
  | .chain ns => enc.acceptedWhile ns
  | .get => []
  | .size => []
  | .fork _ => []

/-- The components that a session has had taken, in their order. -/
def accepted (enc : Encoder s) : List (Call s) → List (Word s)
  | [] => []
  | c :: cs => enc.acceptedBy c ++ accepted (enc.call c).2 cs

/-- All that a push can do, if it is not refused. -/
theorem push_eq_ok_iff (hl : enc.entry.Lawful) :
    enc.push n = .ok enc' ↔
      ∃ b, enc.entry.bounds[enc.index]? = some b ∧
        (-b.toInt ≤ n.toInt ∧ n.toInt ≤ b.toInt) ∧ enc' = enc.accept b n := by
  cases hb : enc.entry.bounds[enc.index]? with
  | none =>
      rw [push_of_none hb]
      simp only [reduceCtorEq, false_and, exists_false]
  | some b =>
      rw [push_of_bound hl hb]
      simp only [Option.some.injEq, exists_eq_left']
      split
      · next hn =>
          rw [Except.ok.injEq, eq_comm]
          exact (and_iff_right hn).symm
      · next hn => exact iff_of_false (fun h => by cases h) fun h => hn h.1

/-! ## What every accepted component keeps -/

section Induction

variable {P : List (Word s) → Encoder s → Prop}
  (hpush : ∀ taken enc enc' n, P taken enc → enc.push n = .ok enc' →
    P (taken ++ [n]) enc')

include hpush

theorem pushWhile_induction (h : P taken enc) (ns : List (Word s)) :
    P (taken ++ enc.acceptedWhile ns) (enc.pushWhile ns).2 := by
  induction ns generalizing enc taken with
  | nil =>
      rw [acceptedWhile, List.append_nil]
      exact h
  | cons n ns ih =>
      cases hn : enc.push n with
      | ok enc' =>
          simp only [acceptedWhile, pushWhile, hn]
          rw [List.append_cons]
          exact ih (hpush taken enc enc' n h hn)
      | error err =>
          simp only [acceptedWhile, pushWhile, hn, List.append_nil]
          exact h

theorem call_induction (h : P taken enc) (c : Call s) :
    P (taken ++ enc.acceptedBy c) (enc.call c).2 := by
  cases c with
  | push n =>
      have hone := pushWhile_induction hpush h [n]
      rw [pushWhile] at hone
      rw [acceptedBy, call]
      split
      · next haccept => simpa only [haccept, pushWhile] using hone
      · next hrefuse => simpa only [hrefuse] using hone
  | chain ns =>
      have hchain := pushWhile_induction hpush h ns
      rw [acceptedBy, call]
      split
      · next hns => rw [hns] at hchain; exact hchain
      · next hns => rw [hns] at hchain; exact hchain
  | get =>
      rw [acceptedBy, List.append_nil, call]
      split
      · exact h
      · exact h
  | size =>
      rw [acceptedBy, List.append_nil]
      exact h
  | fork n =>
      rw [acceptedBy, List.append_nil, call]
      split
      · exact h
      · exact h

theorem after_induction (h : P taken enc) (calls : List (Call s)) :
    P (taken ++ enc.accepted calls) (enc.after calls) := by
  induction calls generalizing enc taken with
  | nil =>
      rw [accepted, List.append_nil]
      exact h
  | cons c cs ih =>
      rw [accepted, ← List.append_assoc]
      exact ih (call_induction hpush h c)

end Induction

/-- The state of an encoder means the components that its calls had taken. -/
theorem Carries.after_accepted (h : enc.Carries taken)
    (calls : List (Call s)) :
    (enc.after calls).entry = enc.entry ∧
      (enc.after calls).Carries (taken ++ enc.accepted calls) := by
  refine after_induction (P := fun taken enc' => enc'.entry = enc.entry ∧
    enc'.Carries taken) ?_ ⟨rfl, h⟩ calls
  intro taken enc₁ enc₂ n h hpush
  obtain ⟨hentry, hcarries⟩ := h
  obtain ⟨b, hb, hn, rfl⟩ := (push_eq_ok_iff hcarries.lawful).1 hpush
  exact ⟨hentry, hcarries.accept hb hn⟩

theorem Carries.after (h : enc.Carries taken) (calls : List (Call s)) :
    (enc.after calls).entry = enc.entry ∧
      ∃ more, (enc.after calls).Carries (taken ++ more) := by
  obtain ⟨hentry, hcarries⟩ := h.after_accepted calls
  exact ⟨hentry, _, hcarries⟩

/-! ## The answers of a session -/

theorem session_concat (enc : Encoder s) (calls : List (Call s)) (c : Call s) :
    enc.session (calls ++ [c]) =
      enc.session calls ++ [(enc.after calls).call c] := by
  induction calls generalizing enc with
  | nil => rfl
  | cons c' cs ih =>
      simp only [List.cons_append, session, ih]
      rfl

end KroneckerCode.Encoder

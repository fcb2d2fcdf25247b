import KroneckerCode.Decoder.Session
import KroneckerCode.Proofs.Decoder.Position

/-!
# A session with a decoder moves along its vector

The vector of a decoder and the number of components behind it decide both what
a call is answered, `Call.reply`, and how many components are behind it then,
`Call.behind`. Neither looks at a decoder. A session with a decoder gives these
answers and goes to these positions, in every order of calls and past the end
as before it (`after_seek`).
-/

namespace KroneckerCode.Decoder

variable {s : WordSize} {dec : Decoder s} {v : List (Word s)} {x k : Nat}

/-- The decoder after a list of calls. -/
def after (dec : Decoder s) (calls : List Call) : Decoder s :=
  calls.foldl (fun dec c => (dec.call c).2) dec

/-! ## Calls on a vector -/

namespace Call

/-- What a call is answered when `k` components of the vector are behind. -/
def reply (v : List (Word s)) (k : Nat) : Call → Answer s
  | .pull =>
    match v[k]? with
    | some w => .pulled w
    | none => .refused (.tooManyPulls v.length)
  | .next => .next v[k]?
  | .nth n => .next v[k + n]?
  | .take n => .components ((v.drop k).take n)
  | .collect => .components (v.drop k)
  | .fork => .components (v.drop k)
  | .size => .count v.length
  | .length => .count (v.length - k)
  | .sizeHint => .hint (v.length - k) (some (v.length - k))

/-- How many of the components are behind after a call. -/
def behind (size k : Nat) : Call → Nat
  | .pull => min (k + 1) size
  | .next => min (k + 1) size
  | .nth n => min (k + n + 1) size
  | .take n => min (k + n) size
  | .collect => size
  | .fork => k
  | .size => k
  | .length => k
  | .sizeHint => k

/-- How many of the components a session has left behind. -/
def consumed (size : Nat) (calls : List Call) : Nat :=
  calls.foldl (behind size) 0

theorem behind_le {size : Nat} (hk : k ≤ size) (c : Call) :
    c.behind size k ≤ size := by
  cases c with
  | collect => exact Nat.le_refl size
  | fork => exact hk
  | size => exact hk
  | length => exact hk
  | sizeHint => exact hk
  | pull => exact Nat.min_le_right _ _
  | next => exact Nat.min_le_right _ _
  | nth n => exact Nat.min_le_right _ _
  | take n => exact Nat.min_le_right _ _

end Call

/-! ## Calls on a decoder -/

theorem Gives.call_seek (h : dec.Gives v) (hk : k ≤ dec.size) (c : Call) :
    (dec.seek k).call c = (c.reply v k, dec.seek (c.behind dec.size k)) := by
  have hlen := h.length_eq
  cases c with
  | pull =>
      cases hw : v[k]? with
      | some w =>
          obtain ⟨hlt, _⟩ := List.getElem?_eq_some_iff.1 hw
          rw [call, h.pull_seek_of_some hw, Call.reply, hw, Call.behind,
            Nat.min_eq_left (by omega)]
      | none =>
          have hge := List.getElem?_eq_none_iff.1 hw
          have hend : k = dec.size := by omega
          rw [Call.reply, hw, hlen, Call.behind, Nat.min_eq_right (by omega),
            hend, call, pull_seek_size]
  | next =>
      rw [call, h.next?_seek hk, Call.reply, Call.behind]
      cases hw : v[k]? with
      | some w =>
          obtain ⟨hlt, _⟩ := List.getElem?_eq_some_iff.1 hw
          rw [Nat.min_eq_left (by omega)]
          rfl
      | none =>
          have hge := List.getElem?_eq_none_iff.1 hw
          rw [Nat.min_eq_right (by omega), Nat.le_antisymm hk (hlen ▸ hge)]
          rfl
  | nth n =>
      rw [call, h.nth_seek hk]
      rfl
  | take n =>
      rw [call, h.take_seek hk]
      rfl
  | collect =>
      rw [call, h.takeAll_seek hk]
      rfl
  | fork =>
      rw [call, h.takeAll_seek hk]
      rfl
  | size =>
      rw [Call.reply, hlen]
      rfl
  | length =>
      rw [Call.reply, hlen]
      rfl
  | sizeHint =>
      rw [Call.reply, hlen]
      rfl

/-- After a session the decoder is in front of the component that the calls
lead to. -/
theorem Gives.after_seek (h : dec.Gives v) (hk : k ≤ dec.size)
    (calls : List Call) :
    (dec.seek k).after calls =
        dec.seek (calls.foldl (Call.behind dec.size) k) ∧
      calls.foldl (Call.behind dec.size) k ≤ dec.size := by
  induction calls generalizing k with
  | nil => exact ⟨rfl, hk⟩
  | cons c cs ih =>
      obtain ⟨hafter, hle⟩ := ih (Call.behind_le hk c)
      refine ⟨?_, hle⟩
      rw [after, List.foldl_cons, h.call_seek hk]
      exact hafter

theorem Splits.after (h : dec.Splits x) (calls : List Call) :
    (dec.after calls).entry = dec.entry ∧ (dec.after calls).Splits x := by
  obtain ⟨v, hgives, _⟩ := h.exists_gives
  obtain ⟨hafter, hle⟩ := hgives.after_seek h.index_le calls
  rw [h.seek_index] at hafter
  rw [hafter]
  exact ⟨rfl, h.seek hle⟩

theorem session_concat (dec : Decoder s) (calls : List Call) (c : Call) :
    dec.session (calls ++ [c]) =
      dec.session calls ++ [(dec.after calls).call c] := by
  induction calls generalizing dec with
  | nil => rfl
  | cons c' cs ih =>
      simp only [List.cons_append, session, ih]
      rfl

/-! ## Copies -/

/-- A move in a session with a decoder and its copies, which stand in a row. -/
inductive Move where
  | call (i : Nat) (c : Call)
  /-- Puts a copy at the end of the row. -/
  | copy (i : Nat)

/-- The row after a move, for anything that calls change. -/
def Move.run {α : Type} (step : α → Call → α) (row : List α) : Move → List α
  | call i c => row.modify i fun a => step a c
  | copy i => row ++ row[i]?.toList

/-- The row of a decoder and its copies after a list of moves. -/
def copies (dec : Decoder s) (moves : List Move) : List (Decoder s) :=
  moves.foldl (Move.run fun dec c => (dec.call c).2) [dec]

/-- How many components each of them has behind it. -/
def Call.consumedEach (size : Nat) (moves : List Move) : List Nat :=
  moves.foldl (Move.run fun k c => c.behind size k) [0]

section

variable {α β : Type} {R : α → β → Prop} {as : List α} {bs : List β}

theorem forall₂_modify {f : α → α} {g : β → β}
    (hfg : ∀ a b, R a b → R (f a) (g b)) (h : List.Forall₂ R as bs) (i : Nat) :
    List.Forall₂ R (as.modify i f) (bs.modify i g) := by
  induction h generalizing i with
  | nil =>
      rw [List.modify_nil, List.modify_nil]
      exact .nil
  | cons hab htail ih =>
      cases i with
      | zero => exact .cons (hfg _ _ hab) htail
      | succ i => exact .cons hab (ih i)

theorem forall₂_toList_getElem? (h : List.Forall₂ R as bs) (i : Nat) :
    List.Forall₂ R as[i]?.toList bs[i]?.toList := by
  induction h generalizing i with
  | nil => exact .nil
  | cons hab _ ih =>
      cases i with
      | zero => exact .cons hab .nil
      | succ i => exact ih i

theorem forall₂_foldl_run {step : α → Call → α} {step' : β → Call → β}
    (hstep : ∀ a b c, R a b → R (step a c) (step' b c))
    (h : List.Forall₂ R as bs) (moves : List Move) :
    List.Forall₂ R (moves.foldl (Move.run step) as)
      (moves.foldl (Move.run step') bs) := by
  induction moves generalizing as bs with
  | nil => exact h
  | cons m ms ih =>
      refine ih ?_
      cases m with
      | call i c => exact forall₂_modify (fun a b => hstep a b c) h i
      | copy i => exact List.rel_append h (forall₂_toList_getElem? h i)

end

/-- Each copy is in front of the component that its own calls lead to. -/
theorem Gives.copies_seek (h : dec.Gives v) (moves : List Move) :
    List.Forall₂ (fun copy k => k ≤ dec.size ∧ copy = dec.seek k)
      ((dec.seek 0).copies moves) (Call.consumedEach dec.size moves) := by
  refine forall₂_foldl_run ?_ (.cons ⟨Nat.zero_le _, rfl⟩ .nil) moves
  rintro _ k c ⟨hk, rfl⟩
  rw [h.call_seek hk]
  exact ⟨Call.behind_le hk c, rfl⟩

end KroneckerCode.Decoder

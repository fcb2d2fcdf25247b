import KroneckerCode.Proofs.Cast.Exact
import KroneckerCode.Proofs.Encoder.Batch
import KroneckerCode.Proofs.Encoder.Session

/-!
# Elements are encoded as the words with their numbers

The encoder converts a component and pushes it before it converts the next, so
an error of either kind may come first. But a vector that has a code has had all
of its components converted and all of them taken. So there are words with the
same numbers, those words are an allowed vector, and its code is the code of the
elements. Types do not matter: elements of two types that denote the same
numbers are encoded alike.
-/

namespace KroneckerCode

open Limits

variable {s : WordSize} {e : ElementType} {xs : List (Element e)}
  {ws : List (Word s)}

/-! ## Computations that succeed or fail -/

section

variable {ε ε' α β : Type}

theorem bind_eq_ok_iff {x : Except ε α} {f : α → Except ε β} {b : β} :
    x >>= f = .ok b ↔ ∃ a, x = .ok a ∧ f a = .ok b := by
  cases x with
  | error err =>
      refine iff_of_false (fun h => by cases h) ?_
      rintro ⟨a, h, _⟩
      cases h
  | ok a => exact ⟨fun h => ⟨a, rfl, h⟩, fun ⟨_, ha, h⟩ => by cases ha; exact h⟩

theorem mapError_eq_ok_iff {x : Except ε α} {f : ε → ε'} {a : α} :
    x.mapError f = .ok a ↔ x = .ok a := by
  cases x with
  | error err => exact iff_of_false (fun h => by cases h) fun h => by cases h
  | ok a' => rw [Except.mapError, Except.ok.injEq, Except.ok.injEq]

theorem bind_eq_error_iff {x : Except ε α} {f : α → Except ε β} {err : ε} :
    x >>= f = .error err ↔
      x = .error err ∨ ∃ a, x = .ok a ∧ f a = .error err := by
  cases x <;> simp [bind, Except.bind]

theorem mapError_eq_error_iff {x : Except ε α} {f : ε → ε'} {err : ε'} :
    x.mapError f = .error err ↔ ∃ err', x = .error err' ∧ f err' = err := by
  cases x <;> simp [Except.mapError]

end

/-! ## Elements and words -/

/-- The words denote the numbers that the elements denote. -/
def SameNumbers (e : ElementType) (xs : List (Element e))
    (ws : List (Word s)) : Prop :=
  List.Forall₂ (fun x w => Element.number? e x = some (w.toInt : ℚ)) xs ws

theorem sameNumbers_iff :
    SameNumbers e xs ws ↔
      List.Forall₂ (fun x (n : Int) => Element.number? e x = some (n : ℚ)) xs
        (ws.map Word.toInt) := by
  rw [List.forall₂_map_right_iff]
  rfl

namespace Encoder

variable {enc enc' : Encoder s} {taken : List (Word s)}

theorem castComponent_eq_ok_iff {index : Nat} {x : Element e} {w : Word s} :
    castComponent s e index x = .ok w ↔
      Element.number? e x = some (w.toInt : ℚ) := by
  rw [castComponent, mapError_eq_ok_iff, Cast.toWord_eq_ok_iff]

theorem pushList_of_sameNumbers (h : SameNumbers e xs ws) (enc : Encoder s)
    (index : Nat) :
    enc.pushList e index xs =
      enc.pushList (.int (.signed s)) index (ws.map Word.toElement) := by
  induction h generalizing enc index with
  | nil => rfl
  | cons hx _ ih =>
      rw [List.map_cons, pushList, pushList, castComponent_toElement,
        castComponent_eq_ok_iff.2 hx]
      simp only [ih]

/-- An encoder that took all the elements has taken words with their numbers. -/
theorem Carries.of_pushList {index : Nat} (h : enc.Carries taken)
    (hrun : enc.pushList e index xs = .ok enc') :
    ∃ ws, SameNumbers e xs ws ∧ enc'.entry = enc.entry ∧
      enc'.Carries (taken ++ ws) := by
  induction xs generalizing enc taken index with
  | nil =>
      obtain rfl := Except.ok.inj hrun
      exact ⟨[], .nil, rfl, by rw [List.append_nil]; exact h⟩
  | cons x xs ih =>
      obtain ⟨n, hcast, hrun⟩ := bind_eq_ok_iff.1 hrun
      obtain ⟨next, hpush, hrun⟩ := bind_eq_ok_iff.1 hrun
      obtain ⟨b, hb, hn, rfl⟩ := (push_eq_ok_iff h.lawful).1 hpush
      obtain ⟨ws, hsame, hentry, hcarries⟩ := ih (h.accept hb hn) hrun
      rw [List.append_assoc] at hcarries
      exact ⟨n :: ws, .cons (castComponent_eq_ok_iff.1 hcast) hsame, hentry,
        hcarries⟩

end Encoder

theorem encode_of_sameNumbers (h : SameNumbers e xs ws) :
    encode s e xs =
      encode s (.int (.signed s)) (ws.map Word.toElement) := by
  simp only [encode, List.length_map, h.length_eq,
    Encoder.pushList_of_sameNumbers h]

/-- Only allowed vectors of a dimension of the table have a code. -/
theorem allows_of_encode {code : Word s} (h : encode s e xs = .ok code) :
    ∃ entry ws, (standard s).get? xs.length = some entry ∧
      SameNumbers e xs ws ∧ entry.Allows ws := by
  obtain ⟨start, hstart, h⟩ := bind_eq_ok_iff.1 h
  obtain ⟨enc, hrun, _⟩ := bind_eq_ok_iff.1 h
  cases he : (standard s).get? xs.length with
  | none =>
      rw [Encoder.ofSize, Table.entry, he] at hstart
      cases hstart
  | some entry =>
      obtain ⟨hdim, hlawful⟩ := lawful_standard s _ entry he
      rw [Encoder.ofSize_eq he] at hstart
      obtain rfl := Except.ok.inj hstart
      obtain ⟨ws, hsame, hentry, hcarries⟩ :=
        (Encoder.carries_start hlawful).of_pushList hrun
      have hfull : enc.index = enc.size := by
        rw [← hcarries.length_taken, Encoder.size, hentry]
        exact hsame.length_eq.symm.trans hdim.symm
      have hallowed := hcarries.allowed
      rw [Encoder.passed_of_full hfull, hentry] at hallowed
      exact ⟨entry, ws, rfl, hsame, hlawful.allows_iff.2 hallowed⟩

/-- A vector of elements has a code exactly if it has the numbers of an allowed
vector. -/
theorem exists_encode_iff :
    (∃ code, encode s e xs = .ok code) ↔
      ∃ entry ws, (standard s).get? xs.length = some entry ∧
        SameNumbers e xs ws ∧ entry.Allows ws := by
  constructor
  · rintro ⟨code, h⟩
    exact allows_of_encode h
  · rintro ⟨entry, ws, he, hsame, ha⟩
    rw [hsame.length_eq] at he
    obtain ⟨code, hcode, _⟩ := encode_of_allows he ha
    exact ⟨code, (encode_of_sameNumbers hsame).trans hcode⟩

end KroneckerCode

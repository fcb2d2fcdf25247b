import KroneckerCode.Proofs.Encoder.Batch
import Mathlib.Order.Bounds.Basic

/-!
# What an encoder refuses

A component is refused for one of two reasons: there is no word for it, or the
word is outside the bound of its position. Which one it is can be told from the
component and its position alone, and so can the error (`Refuses`). What an
encoder has taken before has no part in it.

Every error of a batch is therefore the refusal of one component, and of the
first that is refused: those before it are taken, and those behind it are not
looked at. The two errors of an encoder that is offered too many components, or
asked too early, cannot come up, since a batch offers exactly as many as the
encoder is made for.

All of this is said of items that are given one after the other, of which a list
is the case that ends where the encoder is full.
-/

namespace KroneckerCode

open Limits

variable {s : WordSize} {t : ElementType} {i : Nat} {err : CodecError}

/-- The error for a component at position `i`, where the bound is `b`, if it is
refused. -/
inductive Refuses (b : Word s) (i : Nat) (x : Element t) : CodecError → Prop
  /-- There is no word for the component. -/
  | cast {source : CastError} : Cast.toWord s t x = .error source →
      Refuses b i x (.componentCastFailure i source)
  /-- The word for the component is outside the bound. -/
  | range {n : Word s} : Cast.toWord s t x = .ok n →
      n.toInt < -b.toInt ∨ b.toInt < n.toInt →
      Refuses b i x (.componentOutOfRange i n.toInt b.toInt)

/-- Position `i` has an item, and with the bounds of the entry it is refused. -/
def Limits.Entry.RefusesAt (e : Entry s) (items : Items (Element t)) (i : Nat)
    (err : CodecError) : Prop :=
  ∃ b x, e.bounds[i]? = some b ∧ items i = some x ∧ Refuses b i x err

/-- Position `i` has an item with a word for it that is within the bound. -/
def Limits.Entry.AcceptsAt (e : Entry s) (items : Items (Element t))
    (i : Nat) : Prop :=
  ∃ b x n, e.bounds[i]? = some b ∧ items i = some x ∧
    Cast.toWord s t x = .ok n ∧ -b.toInt ≤ n.toInt ∧ n.toInt ≤ b.toInt

/-- The first item that is refused is at position `i`, and that is its error. -/
def Limits.Entry.FirstRefusal (e : Entry s) (items : Items (Element t))
    (i : Nat) (err : CodecError) : Prop :=
  IsLeast {i | ∃ err, e.RefusesAt items i err} i ∧ e.RefusesAt items i err

namespace Limits.Entry

variable {e : Entry s} {items : Items (Element t)}

theorem RefusesAt.kind (h : e.RefusesAt items i err) :
    (∃ source, err = .componentCastFailure i source) ∨
      ∃ n b, err = .componentOutOfRange i n b := by
  obtain ⟨b, x, hb, hx, h⟩ := h
  cases h with
  | cast _ => exact .inl ⟨_, rfl⟩
  | range _ _ => exact .inr ⟨_, _, rfl⟩

theorem RefusesAt.eq {err' : CodecError} (h : e.RefusesAt items i err)
    (h' : e.RefusesAt items i err') : err = err' := by
  obtain ⟨b, x, hb, hx, h⟩ := h
  obtain ⟨b', x', hb', hx', h'⟩ := h'
  obtain rfl := Option.some.inj (hb.symm.trans hb')
  obtain rfl := Option.some.inj (hx.symm.trans hx')
  cases h with
  | cast hcast =>
      cases h' with
      | cast hcast' => rw [hcast, Except.error.injEq] at hcast'; rw [hcast']
      | range hcast' _ => rw [hcast] at hcast'; cases hcast'
  | range hcast _ =>
      cases h' with
      | cast hcast' => rw [hcast] at hcast'; cases hcast'
      | range hcast' _ => rw [hcast, Except.ok.injEq] at hcast'; rw [hcast']

theorem FirstRefusal.unique {i' : Nat} {err' : CodecError}
    (h : e.FirstRefusal items i err) (h' : e.FirstRefusal items i' err') :
    i = i' ∧ err = err' := by
  obtain rfl := h.1.unique h'.1
  exact ⟨rfl, h.2.eq h'.2⟩

theorem AcceptsAt.not_refusesAt (h : e.AcceptsAt items i) :
    ¬ e.RefusesAt items i err := by
  rintro ⟨b', x', hb', hx', h'⟩
  obtain ⟨b, x, n, hb, hx, hcast, hlo, hhi⟩ := h
  obtain rfl := Option.some.inj (hb.symm.trans hb')
  obtain rfl := Option.some.inj (hx.symm.trans hx')
  cases h' with
  | cast hcast' => rw [hcast] at hcast'; cases hcast'
  | range hcast' hn =>
      rw [hcast, Except.ok.injEq] at hcast'
      rw [← hcast'] at hn
      omega

/-- A refusal is the first one if all that comes before it is accepted. -/
theorem RefusesAt.firstRefusal (h : e.RefusesAt items i err)
    (hbefore : ∀ j < i, e.AcceptsAt items j) : e.FirstRefusal items i err := by
  refine ⟨⟨⟨err, h⟩, ?_⟩, h⟩
  rintro j ⟨err', hj⟩
  by_contra hlt
  exact (hbefore j (Nat.not_le.1 hlt)).not_refusesAt hj

/-- An item at a position that has a bound is accepted or refused. -/
theorem acceptsAt_or_refusesAt {b : Word s} {x : Element t}
    (hb : e.bounds[i]? = some b) (hx : items i = some x) :
    e.AcceptsAt items i ∨ ∃ err, e.RefusesAt items i err := by
  cases hcast : Cast.toWord s t x with
  | error source => exact .inr ⟨_, b, x, hb, hx, .cast hcast⟩
  | ok n =>
      by_cases hn : n.toInt < -b.toInt ∨ b.toInt < n.toInt
      · exact .inr ⟨_, b, x, hb, hx, .range hcast hn⟩
      · exact .inl ⟨b, x, n, hb, hx, hcast, by omega, by omega⟩

end Limits.Entry

namespace Encoder

variable {enc : Encoder s} {taken : List (Word s)} {items : Items (Element t)}
  {left : Nat}

/-! ## One item -/

theorem pushItems_of_none {index : Nat} (hx : items index = none) :
    enc.pushItems t items index left = (.ok enc, index) := by
  cases left with
  | zero => rfl
  | succ left => rw [pushItems, hx]

theorem Carries.pushItems_of_refusesAt (h : enc.Carries taken)
    (hrefuse : enc.entry.RefusesAt items enc.index err) :
    enc.pushItems t items enc.index (left + 1) =
      (.error err, enc.index + 1) := by
  obtain ⟨b, x, hb, hx, hrefuse⟩ := hrefuse
  rw [pushItems, hx]
  cases hrefuse with
  | cast hcast => simp only [castComponent, hcast, Except.mapError]
  | @range n hcast hn =>
      have hpush := push_of_bound h.lawful hb n
      rw [if_neg (by omega)] at hpush
      simp only [castComponent, hcast, Except.mapError, hpush]

theorem Carries.pushItems_of_acceptsAt (h : enc.Carries taken)
    (haccept : enc.entry.AcceptsAt items enc.index) (left : Nat) :
    ∃ (next : Encoder s) (more : List (Word s)), next.entry = enc.entry ∧
      next.index = enc.index + 1 ∧ next.Carries more ∧
      enc.pushItems t items enc.index (left + 1) =
        next.pushItems t items next.index left := by
  obtain ⟨b, x, n, hb, hx, hcast, hn⟩ := haccept
  refine ⟨enc.accept b n, taken ++ [n], rfl, rfl, h.accept hb hn, ?_⟩
  have hpush := push_of_bound h.lawful hb n
  rw [if_pos hn] at hpush
  rw [pushItems, hx]
  simp only [castComponent, hcast, Except.mapError, hpush]
  rfl

/-! ## The items of a run -/

/-- A run takes items until it comes to one that is refused, to the end of the
items, or to the end of the bounds. -/
theorem Carries.pushItems_outcome (h : enc.Carries taken)
    (items : Items (Element t)) (hleft : enc.index + left = enc.size) :
    ∃ i, enc.index ≤ i ∧
      (∀ j, enc.index ≤ j → j < i → enc.entry.AcceptsAt items j) ∧
      ((∃ err, enc.entry.RefusesAt items i err ∧
          enc.pushItems t items enc.index left = (.error err, i + 1)) ∨
        ∃ (enc' : Encoder s) (more : List (Word s)),
          enc'.entry = enc.entry ∧ enc'.index = i ∧ enc'.Carries more ∧
          (i < enc.size → items i = none) ∧
          enc.pushItems t items enc.index left = (.ok enc', i)) := by
  induction left generalizing enc taken with
  | zero =>
      refine ⟨enc.index, Nat.le_refl _, fun j hle hlt => by omega, .inr ?_⟩
      exact ⟨enc, taken, rfl, rfl, h, fun hlt => by omega, rfl⟩
  | succ left ih =>
      have hlt : enc.index < enc.entry.bounds.length :=
        show enc.index < enc.size by omega
      cases hx : items enc.index with
      | none =>
          refine ⟨enc.index, Nat.le_refl _, fun j hle hlt => by omega, .inr ?_⟩
          exact ⟨enc, taken, rfl, rfl, h, fun _ => hx, pushItems_of_none hx⟩
      | some x =>
          rcases Entry.acceptsAt_or_refusesAt (List.getElem?_eq_getElem hlt) hx
            with haccept | ⟨err, hrefuse⟩
          · obtain ⟨next, more, hentry, hindex, hcarries, hrun⟩ :=
              h.pushItems_of_acceptsAt haccept left
            have hsize : next.size = enc.size := by rw [size, hentry]; rfl
            obtain ⟨i, hle, hbefore, hend⟩ := ih hcarries (by omega)
            rw [hentry, hsize, ← hrun] at hend
            refine ⟨i, by omega, fun j hj hji => ?_, hend⟩
            rcases Nat.eq_or_lt_of_le hj with rfl | hj
            · exact haccept
            · rw [← hentry]
              exact hbefore j (by omega) hji
          · refine ⟨enc.index, Nat.le_refl _, fun j hle hlt => by omega, .inl ?_⟩
            exact ⟨err, hrefuse, h.pushItems_of_refusesAt hrefuse⟩

/-- A list is taken like items that end where it ends. -/
theorem pushList_eq_pushItems (enc : Encoder s) {index : Nat}
    {xs : List (Element t)} (hitems : ∀ j, items (index + j) = xs[j]?) :
    enc.pushList t index xs = (enc.pushItems t items index xs.length).1 := by
  induction xs generalizing enc index with
  | nil => rfl
  | cons x xs ih =>
      have hx : items index = some x := hitems 0
      have hrest : ∀ j, items (index + 1 + j) = xs[j]? := by
        intro j
        rw [Nat.add_assoc, Nat.add_comm 1 j]
        exact hitems (j + 1)
      simp only [pushList, List.length_cons, pushItems, hx]
      cases hcast : castComponent s t index x with
      | error err => rfl
      | ok n =>
          dsimp only
          show (enc.push n).bind _ = _
          cases enc.push n with
          | error err => rfl
          | ok next => exact ih next hrest

end Encoder

/-! ## Lists -/

theorem encode_of_lt {xs : List (Element t)}
    (h : (standard s).maxDimension < xs.length) :
    encode s t xs =
      .error (.dimensionTooLarge xs.length (standard s).maxDimension s.name) := by
  rw [encode, Encoder.ofSize, Table.entry, get?_standard_of_lt h]
  rfl

theorem encodeExact_of_pushItems {e : Entry s} {size n : Nat}
    {items : Items (Element t)} {result : Except CodecError (Encoder s)}
    (he : (standard s).get? size = some e)
    (hrun : (Encoder.start e).pushItems t items (Encoder.start e).index size =
      (result, n)) :
    encodeExact s t items size = (result.bind Encoder.get, n) := by
  have hzero : (Encoder.start e).pushItems t items 0 size = (result, n) := hrun
  rw [encodeExact, Encoder.ofSize_eq he]
  simp only [hzero]

/-- A list is encoded like the items of the list, as many as there are. -/
theorem encode_eq_encodeExact (xs : List (Element t)) :
    encode s t xs = (encodeExact s t (Items.ofList xs) xs.length).1 := by
  rw [encode, encodeExact]
  cases Encoder.ofSize s xs.length with
  | error err => rfl
  | ok enc =>
      have hitems : ∀ j, Items.ofList xs (0 + j) = xs[j]? :=
        fun j => congrArg (xs[·]?) (Nat.zero_add j)
      show (enc.pushList t 0 xs).bind Encoder.get = _
      rw [enc.pushList_eq_pushItems hitems]

/-- A list of a dimension of the table is refused for its first component that
is refused, or it has a code. -/
theorem encode_of_get? {e : Entry s} {xs : List (Element t)}
    (he : (standard s).get? xs.length = some e) :
    (∃ i err, e.FirstRefusal (Items.ofList xs) i err ∧
        encode s t xs = .error err) ∨
      ((∀ i err, ¬ e.RefusesAt (Items.ofList xs) i err) ∧
        ∃ code, encode s t xs = .ok code) := by
  obtain ⟨hdim, hlawful⟩ := lawful_standard s _ e he
  obtain ⟨i, _, hbefore, hend⟩ :=
    (Encoder.carries_start hlawful).pushItems_outcome (Items.ofList xs)
      ((Nat.zero_add _).trans hdim.symm)
  have haccept : ∀ j < i, e.AcceptsAt (Items.ofList xs) j :=
    fun j hj => hbefore j (Nat.zero_le _) hj
  rw [encode_eq_encodeExact]
  rcases hend with ⟨err, hrefuse, hpush⟩ |
    ⟨enc, taken, hentry, hi, hcarries, hnone, hpush⟩
  · refine .inl ⟨i, err, hrefuse.firstRefusal haccept, ?_⟩
    rw [encodeExact_of_pushItems he hpush]
    rfl
  · have hsize : enc.size = xs.length := by rw [Encoder.size, hentry]; exact hdim
    -- a list has an item for every bound
    have hall : i = xs.length := by
      have hle : i ≤ xs.length := hi ▸ hsize ▸ hcarries.index_le
      rcases Nat.eq_or_lt_of_le hle with heq | hlt
      · exact heq
      · have hend := hnone (Nat.lt_of_lt_of_eq hlt hdim.symm)
        exact absurd hlt (Nat.not_lt.2 (List.getElem?_eq_none_iff.1 hend))
    obtain ⟨code, hget, _⟩ := hcarries.get_eq (by rw [hi, hsize, hall])
    refine .inr ⟨?_, code, ?_⟩
    · rintro j err ⟨b, x, hb, hx, hrefuse⟩
      have hj : j < i := hall ▸ (List.getElem?_eq_some_iff.1 hx).1
      exact (haccept j hj).not_refusesAt ⟨b, x, hb, hx, hrefuse⟩
    · rw [encodeExact_of_pushItems he hpush]
      exact hget

theorem encode_eq_dimensionTooLarge_iff (xs : List (Element t)) :
    encode s t xs =
        .error (.dimensionTooLarge xs.length (standard s).maxDimension s.name) ↔
      (standard s).maxDimension < xs.length := by
  refine ⟨fun h => ?_, encode_of_lt⟩
  by_contra hle
  obtain ⟨e, he⟩ := get?_standard_of_le (Nat.not_lt.1 hle)
  rcases encode_of_get? he with ⟨i, err, hfirst, herr⟩ | ⟨_, code, hcode⟩
  · rw [herr, Except.error.injEq] at h
    rcases hfirst.2.kind with ⟨source, hkind⟩ | ⟨n, b, hkind⟩
    · rw [hkind] at h
      cases h
    · rw [hkind] at h
      cases h
  · rw [hcode] at h
    cases h

/-- The outcome of encoding a list of elements, whatever they are. The list is
too long, or the first component that is refused decides the error, or there is
a code. -/
theorem encode_outcome (s : WordSize) (t : ElementType)
    (xs : List (Element t)) :
    (encode s t xs =
        .error (.dimensionTooLarge xs.length (standard s).maxDimension s.name) ↔
      (standard s).maxDimension < xs.length) ∧
    (xs.length ≤ (standard s).maxDimension →
      ∃ e, (standard s).get? xs.length = some e ∧ e.dimension = xs.length ∧
        (∀ err, encode s t xs = .error err ↔
          ∃ i, e.FirstRefusal (Items.ofList xs) i err) ∧
        ((∃ code, encode s t xs = .ok code) ↔
          ∀ i err, ¬ e.RefusesAt (Items.ofList xs) i err)) ∧
    (∀ err, encode s t xs = .error err →
      err = .dimensionTooLarge xs.length (standard s).maxDimension s.name ∨
      (∃ i source, err = .componentCastFailure i source) ∨
      (∃ i n b, err = .componentOutOfRange i n b)) := by
  refine ⟨encode_eq_dimensionTooLarge_iff xs, fun hle => ?_, fun err herr => ?_⟩
  · obtain ⟨e, he⟩ := get?_standard_of_le hle
    refine ⟨e, he, (lawful_standard s _ e he).1, ?_⟩
    rcases encode_of_get? he with ⟨i, err, hfirst, herr⟩ | ⟨hnone, code, hcode⟩
    · refine ⟨fun err' => ?_, iff_of_false ?_ fun h => h i err hfirst.2⟩
      · rw [herr, Except.error.injEq]
        constructor
        · rintro rfl
          exact ⟨i, hfirst⟩
        · rintro ⟨i', hfirst'⟩
          exact (hfirst.unique hfirst').2
      · rintro ⟨code, hcode⟩
        rw [herr] at hcode
        cases hcode
    · refine ⟨fun err => iff_of_false ?_ ?_, iff_of_true ⟨code, hcode⟩ hnone⟩
      · rw [hcode]
        intro h
        cases h
      · rintro ⟨i, hfirst⟩
        exact hnone i err hfirst.2
  · by_cases hlt : (standard s).maxDimension < xs.length
    · rw [encode_of_lt hlt, Except.error.injEq] at herr
      exact .inl herr.symm
    · obtain ⟨e, he⟩ := get?_standard_of_le (Nat.not_lt.1 hlt)
      rcases encode_of_get? he with ⟨i, err', hfirst, herr'⟩ | ⟨_, code, hcode⟩
      · rw [herr', Except.error.injEq] at herr
        subst herr
        exact .inr (hfirst.2.kind.imp (fun h => ⟨i, h⟩) fun h => ⟨i, h⟩)
      · rw [hcode] at herr
        cases herr

/-- The last of three numbers is no byte, but the second is refused before that,
since no bound of three bytes is so great. -/
theorem encode_outcome_three_bytes :
    3 ≤ (standard .w8).maxDimension ∧
    ∃ e b, (standard .w8).get? 3 = some e ∧ e.bounds[1]? = some b ∧
      encode .w8 (.int (.signed .w16))
        (List.map Word.toElement [1, -128, 300]) =
          .error (.componentOutOfRange 1 (-128) b.toInt) := by
  have hm : 3 ≤ (standard .w8).maxDimension := by
    rw [maxDimension_standard_w8]
    decide
  obtain ⟨e, he, hdim, h, _⟩ := (encode_outcome .w8 (.int (.signed .w16))
    (List.map Word.toElement [1, -128, 300])).2.1 hm
  have hlawful := (lawful_standard .w8 3 e he).2
  have hbounds : e.bounds.length = 3 := hdim
  obtain ⟨b₀, hb₀⟩ : ∃ b, e.bounds[0]? = some b :=
    ⟨_, List.getElem?_eq_getElem (by omega)⟩
  obtain ⟨b, hb⟩ : ∃ b, e.bounds[1]? = some b :=
    ⟨_, List.getElem?_eq_getElem (by omega)⟩
  have hpos := hlawful.one_le_bound b₀ (List.mem_of_getElem? hb₀)
  have hlt := Entry.two_mul_bound_lt_count (List.mem_of_getElem? hb)
  have hcount := hlawful.count_eq
  have hwidth := hlawful.delta_succ_le
  have hmax : WordSize.w8.maxValue = 127 := by decide
  have hone : (1 : Word .w8).toInt = 1 := by decide
  have hleast : (-128 : Word .w8).toInt = -128 := by decide
  have haccept : e.AcceptsAt
      (Items.ofList (List.map Word.toElement [(1 : Word .w16), -128, 300])) 0 :=
    ⟨b₀, _, 1, hb₀, rfl, rfl, by omega, by omega⟩
  have hrefuse : e.RefusesAt
      (Items.ofList (List.map Word.toElement [(1 : Word .w16), -128, 300])) 1
      (.componentOutOfRange 1 (-128 : Word .w8).toInt b.toInt) :=
    ⟨b, _, hb, rfl, .range rfl (.inl (by omega))⟩
  refine ⟨hm, e, b, he, hb, (h _).2 ⟨1, hrefuse.firstRefusal fun j hj => ?_⟩⟩
  obtain rfl : j = 0 := Nat.lt_one_iff.1 hj
  exact haccept

end KroneckerCode

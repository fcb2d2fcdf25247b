import KroneckerCode.Proofs.Encoder.Outcome

/-!
# Encoding the first items of a source

Where the number of components is given apart from the items, the items may end
too early, or never. There are three ways for a run to come to an end, and each
fixes the answer and the place where the source is left: an item is refused, the
items end, or there are enough of them. `Ending` is the list of the three, and a
run comes to exactly one of them (`encodeExact_eq_iff`).

The run looks at an item only when it takes it, and it takes no more than it was
asked for. So sources that agree on the first `size` items are told apart by no
run for `size` components (`encodeExact_congr`). In particular a source with
enough items is as good as the list of its first ones, and what is known of
lists holds for it.
-/

namespace KroneckerCode

open Limits

/-! ## Where items end -/

namespace Items

variable {α : Type} {items : Items α} {m n : Nat}

/-- There are at least `n` items. -/
def Lasts (items : Items α) (n : Nat) : Prop := ∀ i < n, items i ≠ none

/-- There are `n` items, and no more. -/
def EndsAfter (items : Items α) (n : Nat) : Prop :=
  items.Lasts n ∧ items n = none

/-- The first `n` items. -/
def first (items : Items α) (n : Nat) : List α := (List.range n).filterMap items

theorem EndsAfter.not_lasts (h : items.EndsAfter m) (hlt : m < n) :
    ¬ items.Lasts n := fun hlasts => hlasts m hlt h.2

theorem EndsAfter.unique (h : items.EndsAfter m) (h' : items.EndsAfter n) :
    m = n := by
  rcases Nat.lt_trichotomy m n with hlt | heq | hlt
  · exact absurd h'.1 (h.not_lasts hlt)
  · exact heq
  · exact absurd h.1 (h'.not_lasts hlt)

theorem cycle_singleton (x : α) (i : Nat) : cycle [x] i = some x := by
  rw [cycle, List.length_singleton, Nat.mod_one]
  rfl

theorem first_succ {x : α} (hx : items n = some x) :
    items.first (n + 1) = items.first n ++ [x] := by
  rw [first, List.range_succ, List.filterMap_append]
  simp only [List.filterMap_cons, List.filterMap_nil, hx]
  rfl

/-- The first items of a source that lasts are as many as were asked for, and
they are its items. -/
theorem Lasts.first_eq (h : items.Lasts n) :
    (items.first n).length = n ∧ ∀ i < n, (items.first n)[i]? = items i := by
  induction n with
  | zero => exact ⟨rfl, fun i hi => absurd hi (Nat.not_lt_zero i)⟩
  | succ n ih =>
      obtain ⟨x, hx⟩ := Option.ne_none_iff_exists'.1 (h n (Nat.lt_succ_self n))
      obtain ⟨hlen, hget⟩ := ih fun i hi => h i (Nat.lt_succ_of_lt hi)
      rw [first_succ hx]
      refine ⟨by rw [List.length_append, hlen]; rfl, fun i hi => ?_⟩
      rcases Nat.eq_or_lt_of_le (Nat.le_of_lt_succ hi) with rfl | hlt
      · rw [List.getElem?_append_right (Nat.le_of_eq hlen), hlen, Nat.sub_self,
          hx]
        rfl
      · rw [List.getElem?_append_left (by omega), hget i hlt]

end Items

variable {s : WordSize} {t : ElementType} {e : Entry s}
  {items items' : Items (Element t)} {size : Nat}

/-! ## Items that are not looked at -/

/-- A run depends on the items that it may take, and on no others. -/
theorem Encoder.pushItems_congr {enc : Encoder s} {index left : Nat}
    (h : ∀ i, index ≤ i → i < index + left → items' i = items i) :
    enc.pushItems t items' index left = enc.pushItems t items index left := by
  induction left generalizing enc index with
  | zero => rfl
  | succ left ih =>
      have hhead := h index (Nat.le_refl _) (by omega)
      have hrest : ∀ next : Encoder s, next.pushItems t items' (index + 1) left =
          next.pushItems t items (index + 1) left :=
        fun _ => ih fun i hle hlt => h i (by omega) (by omega)
      simp only [pushItems, hhead, hrest]

theorem encodeExact_congr (h : ∀ i < size, items' i = items i) :
    encodeExact s t items' size = encodeExact s t items size := by
  rw [encodeExact, encodeExact]
  cases Encoder.ofSize s size with
  | error err => rfl
  | ok enc =>
      have hrun : enc.pushItems t items' 0 size = enc.pushItems t items 0 size :=
        enc.pushItems_congr fun i _ hi => h i (by omega)
      simp only [hrun]

/-- A source with enough items is encoded like the list of the first ones. -/
theorem encodeExact_eq_encode (h : items.Lasts size) :
    (encodeExact s t items size).1 = encode s t (items.first size) := by
  obtain ⟨hlen, hget⟩ := h.first_eq
  have hlist : encodeExact s t (Items.ofList (items.first size)) size =
      encodeExact s t items size := encodeExact_congr hget
  rw [encode_eq_encodeExact, hlen, hlist]

theorem encodeExact_of_lt (h : (standard s).maxDimension < size) :
    encodeExact s t items size =
      (.error (.dimensionTooLarge size (standard s).maxDimension s.name), 0) := by
  rw [encodeExact, Encoder.ofSize, Table.entry, get?_standard_of_lt h]
  rfl

/-! ## The ways to end -/

/-- No item is refused before the items end. -/
def Limits.Entry.RefusesNone (e : Entry s) (items : Items (Element t)) : Prop :=
  ∀ i err, items.Lasts i → ¬ e.RefusesAt items i err

/-- How a run for `size` components ends: with an answer, and with so many items
taken. -/
inductive Limits.Entry.Ending (e : Entry s) (items : Items (Element t))
    (size : Nat) : Except CodecError (Word s) × Nat → Prop
  /-- An item is refused, and is the last to be taken. -/
  | refusal {i : Nat} {err : CodecError} (lasts : items.Lasts i)
      (first : e.FirstRefusal items i err) :
      e.Ending items size (.error err, i + 1)
  /-- The items end too early. -/
  | shortage {n : Nat} (lt : n < size) (ends : items.EndsAfter n)
      (none : e.RefusesNone items) :
      e.Ending items size (.error (.notEnoughPushes n size), n)
  /-- There are enough items. -/
  | completion (lasts : items.Lasts size) (none : e.RefusesNone items) :
      e.Ending items size (encode s t (items.first size), size)

namespace Limits.Entry

variable {r r' : Except CodecError (Word s) × Nat}

theorem Ending.unique (h : e.Ending items size r)
    (h' : e.Ending items size r') : r = r' := by
  cases h with
  | refusal lasts first =>
      cases h' with
      | refusal _ first' =>
          obtain ⟨rfl, rfl⟩ := first.unique first'
          rfl
      | shortage _ _ none => exact absurd first.2 (none _ _ lasts)
      | completion _ none => exact absurd first.2 (none _ _ lasts)
  | shortage lt ends none =>
      cases h' with
      | refusal lasts first => exact absurd first.2 (none _ _ lasts)
      | shortage _ ends' _ =>
          obtain rfl := ends.unique ends'
          rfl
      | completion lasts _ => exact absurd lasts (ends.not_lasts lt)
  | completion lasts none =>
      cases h' with
      | refusal lasts' first => exact absurd first.2 (none _ _ lasts')
      | shortage lt ends _ => exact absurd lasts (ends.not_lasts lt)
      | completion _ _ => rfl

/-- A position at which an item is refused has a bound. -/
theorem RefusesAt.lt_dimension {i : Nat} {err : CodecError}
    (h : e.RefusesAt items i err) : i < e.dimension := by
  obtain ⟨b, _, hb, _⟩ := h
  exact (List.getElem?_eq_some_iff.1 hb).1

/-- Nothing is refused where all items up to the end, or up to the last bound,
are accepted. -/
theorem refusesNone_of_acceptsAt {n : Nat}
    (haccept : ∀ i < n, e.AcceptsAt items i)
    (hend : n < e.dimension → items n = none) : e.RefusesNone items := by
  intro i err hlasts hrefuse
  have hi := hrefuse.lt_dimension
  rcases Nat.lt_trichotomy i n with hlt | rfl | hlt
  · exact (haccept i hlt).not_refusesAt hrefuse
  · obtain ⟨_, x, _, hx, _⟩ := hrefuse
    rw [hend hi] at hx
    cases hx
  · exact hlasts n hlt (hend (Nat.lt_trans hlt hi))

theorem lasts_of_acceptsAt {n : Nat} (haccept : ∀ i < n, e.AcceptsAt items i) :
    items.Lasts n := by
  intro i hi
  obtain ⟨_, _, _, _, hx, _⟩ := haccept i hi
  rw [hx]
  exact Option.some_ne_none _

theorem Ending.taken_le (h : e.Ending items e.dimension r) :
    r.2 ≤ e.dimension := by
  cases h with
  | refusal _ first => exact first.2.lt_dimension
  | shortage lt _ _ => exact Nat.le_of_lt lt
  | completion _ _ => exact Nat.le_refl _

end Limits.Entry

/-- Every run for a dimension of the table comes to an end. -/
theorem encodeExact_ending (he : (standard s).get? size = some e)
    (items : Items (Element t)) :
    e.Ending items size (encodeExact s t items size) := by
  obtain ⟨hdim, hlawful⟩ := lawful_standard s size e he
  obtain ⟨i, _, hbefore, hend⟩ :=
    (Encoder.carries_start hlawful).pushItems_outcome items
      ((Nat.zero_add _).trans hdim.symm)
  have haccept : ∀ j < i, e.AcceptsAt items j :=
    fun j hj => hbefore j (Nat.zero_le j) hj
  have hlasts := Entry.lasts_of_acceptsAt haccept
  rcases hend with ⟨err, hrefuse, hrun⟩ |
    ⟨enc, taken, hentry, hi, hcarries, hnone, hrun⟩
  · rw [encodeExact_of_pushItems he hrun]
    exact .refusal hlasts (hrefuse.firstRefusal haccept)
  · have hsize : enc.size = size := by rw [Encoder.size, hentry]; exact hdim
    have hall := Entry.refusesNone_of_acceptsAt haccept hnone
    have hanswer := encodeExact_of_pushItems he hrun
    rcases Nat.lt_or_ge i size with hlt | hge
    · have hget : enc.get = .error (.notEnoughPushes i size) := by
        rw [Encoder.get, hi, hsize, if_pos hlt]
      rw [hanswer]
      show e.Ending items size (enc.get, i)
      rw [hget]
      exact .shortage hlt ⟨hlasts, hnone (Nat.lt_of_lt_of_eq hlt hdim.symm)⟩ hall
    · have hle := hcarries.index_le
      obtain rfl : i = size := by omega
      have hcode := encodeExact_eq_encode (s := s) hlasts
      rw [hanswer] at hcode ⊢
      rw [← Prod.mk.eta (p := (_, i)), hcode]
      exact .completion hlasts hall

theorem encodeExact_eq_iff (he : (standard s).get? size = some e)
    {r : Except CodecError (Word s) × Nat} :
    encodeExact s t items size = r ↔ e.Ending items size r := by
  constructor
  · rintro rfl
    exact encodeExact_ending he items
  · exact (encodeExact_ending he items).unique

/-- The outcome of encoding the first `size` items of a source, whether or not it
ends. A dimension that is too large is refused before any item is taken. For any
other there is one way for the run to end, which fixes the answer and the number
of items taken, and that is not above `size`. From enough items comes what comes
from the list of the first ones, and the others have no part in it. -/
theorem encodeExact_outcome (s : WordSize) (t : ElementType)
    (items : Items (Element t)) (size : Nat) :
    ((standard s).maxDimension < size →
      encodeExact s t items size =
        (.error (.dimensionTooLarge size (standard s).maxDimension s.name), 0)) ∧
    (size ≤ (standard s).maxDimension →
      ∃ e, (standard s).get? size = some e ∧ e.dimension = size ∧
        ∀ r, encodeExact s t items size = r ↔ e.Ending items size r) ∧
    (encodeExact s t items size).2 ≤ size ∧
    (items.Lasts size →
      (encodeExact s t items size).1 = encode s t (items.first size) ∧
        (items.first size).length = size ∧
        ∀ i < size, (items.first size)[i]? = items i) ∧
    ∀ items', (∀ i < size, items' i = items i) →
      encodeExact s t items' size = encodeExact s t items size := by
  refine ⟨encodeExact_of_lt, ?_, ?_, ?_, fun _ => encodeExact_congr⟩
  · intro hle
    obtain ⟨e, he⟩ := get?_standard_of_le hle
    exact ⟨e, he, (lawful_standard s size e he).1, fun _ => encodeExact_eq_iff he⟩
  · rcases Nat.lt_or_ge (standard s).maxDimension size with hlt | hle
    · rw [encodeExact_of_lt hlt]
      exact Nat.zero_le size
    · obtain ⟨e, he⟩ := get?_standard_of_le hle
      obtain ⟨rfl, _⟩ := lawful_standard s size e he
      exact (encodeExact_ending he items).taken_le
  · intro hlasts
    exact ⟨encodeExact_eq_encode hlasts, hlasts.first_eq⟩

/-- No bound is below one, so the smallest components are accepted everywhere. -/
theorem Limits.Entry.Lawful.acceptsAt_of_abs_le_one (h : e.Lawful) {i : Nat}
    {x : Element t} {n : Word s} (hi : i < e.dimension)
    (hx : items i = some x) (hcast : Cast.toWord s t x = .ok n)
    (hn : -1 ≤ n.toInt ∧ n.toInt ≤ 1) : e.AcceptsAt items i := by
  obtain ⟨b, hb⟩ : ∃ b, e.bounds[i]? = some b :=
    ⟨_, List.getElem?_eq_getElem hi⟩
  have hpos := h.one_le_bound b (List.mem_of_getElem? hb)
  exact ⟨b, x, n, hb, hx, hcast, by omega, by omega⟩

/-- One and three hundred for ever, of which the second is no byte, two items
where four are wanted, and zero for ever, of which four are taken, as they would
be from a list of four, and none where five are wanted. -/
theorem encodeExact_outcome_bytes :
    4 ≤ (standard .w8).maxDimension ∧
    encodeExact .w8 (.int (.signed .w16))
        (Items.cycle (List.map Word.toElement [1, 300])) 4 =
      (.error (.componentCastFailure 1 ⟨"300", "i8"⟩), 2) ∧
    encodeExact .w8 (.int (.signed .w16))
        (Items.ofList (List.map Word.toElement [0, 1])) 4 =
      (.error (.notEnoughPushes 2 4), 2) ∧
    Items.Lasts (Items.cycle [Word.toElement (0 : Word .w16)]) 4 ∧
    encodeExact .w8 (.int (.signed .w16))
        (Items.cycle [Word.toElement (0 : Word .w16)]) 4 =
      (encode .w8 (.int (.signed .w16))
        (List.map Word.toElement [0, 0, 0, 0]), 4) ∧
    encodeExact .w8 (.int (.signed .w16))
        (Items.ofList (List.map Word.toElement [0, 0, 0, 0])) 4 =
      encodeExact .w8 (.int (.signed .w16))
        (Items.cycle [Word.toElement (0 : Word .w16)]) 4 ∧
    encodeExact .w8 (.int (.signed .w16))
        (Items.cycle [Word.toElement (0 : Word .w16)]) 5 =
      (.error (.dimensionTooLarge 5 4 "i8"), 0) := by
  have hm : 4 ≤ (standard .w8).maxDimension :=
    Nat.le_of_eq maxDimension_standard_w8.symm
  have hzero : (0 : Word .w8).toInt = 0 := by decide
  have hone : (1 : Word .w8).toInt = 1 := by decide
  have hlasts : Items.Lasts (Items.cycle [Word.toElement (0 : Word .w16)]) 4 :=
    fun i _ => Items.cycle_singleton _ i ▸ Option.some_ne_none _
  refine ⟨hm, ?_, ?_, hlasts, ?_, ?_, ?_⟩
  · obtain ⟨e, he, hdim, h⟩ := (encodeExact_outcome .w8 (.int (.signed .w16))
      (Items.cycle (List.map Word.toElement [1, 300])) 4).2.1 hm
    have hlawful := (lawful_standard .w8 4 e he).2
    obtain ⟨b, hb⟩ : ∃ b, e.bounds[1]? = some b :=
      ⟨_, List.getElem?_eq_getElem (show 1 < e.dimension by omega)⟩
    have haccept : ∀ j < 1, e.AcceptsAt
        (Items.cycle (List.map Word.toElement [(1 : Word .w16), 300])) j := by
      intro j hj
      obtain rfl : j = 0 := Nat.lt_one_iff.1 hj
      exact hlawful.acceptsAt_of_abs_le_one (n := 1) (by omega) rfl rfl
        (by omega)
    have hrefuse : e.RefusesAt
        (Items.cycle (List.map Word.toElement [(1 : Word .w16), 300])) 1
        (.componentCastFailure 1 ⟨"300", "i8"⟩) := ⟨b, _, hb, rfl, .cast rfl⟩
    exact (h _).2 (.refusal (i := 1) (Entry.lasts_of_acceptsAt haccept)
      (hrefuse.firstRefusal haccept))
  · obtain ⟨e, he, hdim, h⟩ := (encodeExact_outcome .w8 (.int (.signed .w16))
      (Items.ofList (List.map Word.toElement [0, 1])) 4).2.1 hm
    have hlawful := (lawful_standard .w8 4 e he).2
    have haccept : ∀ j < 2, e.AcceptsAt
        (Items.ofList (List.map Word.toElement [(0 : Word .w16), 1])) j := by
      intro j hj
      obtain rfl | rfl : j = 0 ∨ j = 1 := by omega
      · exact hlawful.acceptsAt_of_abs_le_one (n := 0) (by omega) rfl rfl
          (by omega)
      · exact hlawful.acceptsAt_of_abs_le_one (n := 1) (by omega) rfl rfl
          (by omega)
    exact (h _).2 (.shortage (by decide)
      ⟨Entry.lasts_of_acceptsAt haccept, rfl⟩
      (Entry.refusesNone_of_acceptsAt haccept fun _ => rfl))
  · obtain ⟨e, he, hdim, h⟩ := (encodeExact_outcome .w8 (.int (.signed .w16))
      (Items.cycle [Word.toElement (0 : Word .w16)]) 4).2.1 hm
    have hlawful := (lawful_standard .w8 4 e he).2
    have haccept : ∀ j < 4, e.AcceptsAt
        (Items.cycle [Word.toElement (0 : Word .w16)]) j := fun j hj =>
      hlawful.acceptsAt_of_abs_le_one (n := 0) (by omega)
        (Items.cycle_singleton _ j) rfl (by omega)
    exact (h _).2 (.completion hlasts
      (Entry.refusesNone_of_acceptsAt haccept fun hlt => by omega))
  · refine (encodeExact_outcome .w8 (.int (.signed .w16)) _ 4).2.2.2.2 _ ?_
    intro i hi
    rw [Items.cycle_singleton]
    obtain rfl | rfl | rfl | rfl : i = 0 ∨ i = 1 ∨ i = 2 ∨ i = 3 := by omega
    all_goals rfl
  · have hlarge := (encodeExact_outcome .w8 (.int (.signed .w16))
      (Items.cycle [Word.toElement (0 : Word .w16)]) 5).1
    rw [maxDimension_standard_w8] at hlarge
    exact hlarge (by decide)

end KroneckerCode

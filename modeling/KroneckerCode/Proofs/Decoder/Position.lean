import KroneckerCode.Proofs.Decoder.State

/-!
# A decoder is its position

A decoder keeps a place beside its index, and every component it gives depends
on that place. But the place is never free: in front of component `k` it is the
number of vectors that the first `k` bounds allow. So for one code there is one
decoder in front of each component, `dec.seek k`, and whichever way a decoder
came to `k` components it is that one.

What a decoder gives is then an equation for each way of asking. `Gives` fixes
the vector, and in front of component `k` the next component is `v[k]`, leaving
out `n` of them gives `v[k + n]`, and taking some gives a slice of `v`. Past the
end each of them stops in front of nothing, `dec.seek dec.size`, and stays
there.
-/

namespace KroneckerCode.Decoder

open MixedRadix Limits

variable {s : WordSize} {dec : Decoder s} {v : List (Word s)} {x k : Nat}
  {w : Word s}

/-- The decoder in front of component `k`. -/
def seek (dec : Decoder s) (k : Nat) : Decoder s :=
  { dec with index := k, place := Word.ofInt (dec.entry.placeAt k) }

@[simp] theorem remaining_seek (dec : Decoder s) (k : Nat) :
    (dec.seek k).remaining = dec.size - k := rfl

/-- Every place of a decoder is a word. -/
theorem Splits.toInt_placeAt (h : dec.Splits x) (k : Nat) :
    (Word.ofInt (dec.entry.placeAt k) : Word s).toInt =
      dec.entry.placeAt k := by
  have hle := Entry.placeAt_le_count dec.entry k
  have hcount := h.lawful.count_eq
  exact Word.toInt_ofInt
    (h.lawful.holds_of_le_delta_succ (Int.natCast_nonneg _) (by omega))

theorem Splits.seek (h : dec.Splits x) (hk : k ≤ dec.size) :
    (dec.seek k).Splits x where
  lawful := h.lawful
  index_le := hk
  lt_count := h.lt_count
  code_eq := h.code_eq
  place_eq := h.toInt_placeAt k

/-- A decoder is in front of the component that it counts. -/
theorem Splits.seek_index (h : dec.Splits x) : dec.seek dec.index = dec := by
  have hplace : Word.ofInt (dec.entry.placeAt dec.index) = dec.place :=
    Word.toInt_inj.1 ((h.toInt_placeAt _).trans h.place_eq.symm)
  rw [Decoder.seek, hplace]

theorem Splits.advance_seek {b : Word s} (h : dec.Splits x)
    (hb : dec.entry.bounds[k]? = some b) :
    (dec.seek k).advance b = dec.seek (k + 1) := by
  have hk : k < dec.size := (List.getElem?_eq_some_iff.1 hb).1
  have hadvance := (h.seek (Nat.le_of_lt hk)).advance hb
  exact hadvance.seek_index.symm

/-! ## The vector that a decoder gives -/

/-- The decoder gives the components of this vector. -/
def Gives (dec : Decoder s) (v : List (Word s)) : Prop :=
  ∃ x, dec.Splits x ∧ v.map Word.toInt = unrank dec.entry.digitBounds x

theorem Splits.holds_of_mem_unrank (h : dec.Splits x) {d : Int}
    (hd : d ∈ unrank dec.entry.digitBounds x) : s.Holds d := by
  obtain ⟨i, hi, hget⟩ := List.mem_iff_getElem.1 hd
  rw [length_unrank, Entry.length_digitBounds] at hi
  have hb := List.getElem?_eq_getElem hi
  have hat : dec.seek i |>.Splits x := h.seek (Nat.le_of_lt hi)
  have hcomponent := hat.component_eq hb
  have hsome := (List.getElem?_eq_some_iff.2 ⟨_, hget⟩).symm.trans hcomponent
  rw [Option.some.inj hsome]
  exact Word.holds_toInt _

theorem Splits.exists_gives (h : dec.Splits x) :
    ∃ v, dec.Gives v ∧ v.map Word.toInt = unrank dec.entry.digitBounds x := by
  let v := (unrank dec.entry.digitBounds x).map fun d => (Word.ofInt d : Word s)
  have hv : v.map Word.toInt = unrank dec.entry.digitBounds x := by
    rw [List.map_map]
    refine (List.map_congr_left fun d hd => ?_).trans (List.map_id _)
    exact Word.toInt_ofInt (h.holds_of_mem_unrank hd)
  exact ⟨v, ⟨x, h, hv⟩, hv⟩

theorem Gives.length_eq (h : dec.Gives v) : v.length = dec.size := by
  obtain ⟨x, _, hv⟩ := h
  have hlen := congrArg List.length hv
  rw [List.length_map, length_unrank, Entry.length_digitBounds] at hlen
  exact hlen

theorem Gives.pull_seek_of_some (h : dec.Gives v) (hw : v[k]? = some w) :
    (dec.seek k).pull = .ok (w, dec.seek (k + 1)) := by
  have hlen := h.length_eq
  obtain ⟨hlt, _⟩ := List.getElem?_eq_some_iff.1 hw
  obtain ⟨x, hsplits, hv⟩ := h
  have hk : k < dec.entry.bounds.length := Nat.lt_of_lt_of_eq hlt hlen
  have hb := List.getElem?_eq_getElem hk
  have hat := hsplits.seek (Nat.le_of_lt hk)
  have hcomponent := hat.component_eq hb
  have hget := congrArg (fun ds => ds[k]?) hv
  simp only [List.getElem?_map, hw, Option.map_some] at hget
  have hsame : some w.toInt = some ((dec.seek k).component _).toInt :=
    hget.trans hcomponent
  rw [Option.some.injEq, Word.toInt_inj] at hsame
  rw [pull_of_bound hb, ← hsame, hsplits.advance_seek hb]

theorem pull_seek_size (dec : Decoder s) :
    (dec.seek dec.size).pull = .error (.tooManyPulls dec.size) :=
  pull_of_none (List.getElem?_eq_none (Nat.le_refl _))

theorem Gives.next?_seek (h : dec.Gives v) (hk : k ≤ dec.size) :
    (dec.seek k).next? = v[k]?.map fun w => (w, dec.seek (k + 1)) := by
  have hlen := h.length_eq
  cases hw : v[k]? with
  | some w =>
      rw [next?, h.pull_seek_of_some hw]
      rfl
  | none =>
      have hend : k = dec.size := by
        have hge := List.getElem?_eq_none_iff.1 hw
        omega
      rw [next?, hend, pull_seek_size]
      rfl

/-! ## Every way of asking -/

theorem Gives.nth_seek (h : dec.Gives v) (hk : k ≤ dec.size) (n : Nat) :
    (dec.seek k).nth n = (v[k + n]?, dec.seek (min (k + n + 1) dec.size)) := by
  have hlen := h.length_eq
  induction n generalizing k with
  | zero =>
      rw [nth, h.next?_seek hk, Nat.add_zero]
      cases hw : v[k]? with
      | some w =>
          obtain ⟨hlt, _⟩ := List.getElem?_eq_some_iff.1 hw
          rw [Nat.min_eq_left (by omega)]
          rfl
      | none =>
          have hge := List.getElem?_eq_none_iff.1 hw
          rw [Nat.min_eq_right (by omega), Nat.le_antisymm hk (hlen ▸ hge)]
          rfl
  | succ n ih =>
      rw [nth, h.next?_seek hk]
      cases hw : v[k]? with
      | some w =>
          obtain ⟨hlt, _⟩ := List.getElem?_eq_some_iff.1 hw
          show (dec.seek (k + 1)).nth n = _
          rw [ih (by omega), Nat.add_right_comm k 1 n]
          rfl
      | none =>
          have hge := List.getElem?_eq_none_iff.1 hw
          rw [Nat.min_eq_right (by omega), List.getElem?_eq_none (by omega),
            Nat.le_antisymm hk (hlen ▸ hge)]
          rfl

theorem Gives.take_seek (h : dec.Gives v) (hk : k ≤ dec.size) (n : Nat) :
    (dec.seek k).take n =
      ((v.drop k).take n, dec.seek (min (k + n) dec.size)) := by
  have hlen := h.length_eq
  induction n generalizing k with
  | zero =>
      rw [take, List.take_zero, Nat.add_zero, Nat.min_eq_left hk]
  | succ n ih =>
      rw [take, h.next?_seek hk]
      cases hw : v[k]? with
      | some w =>
          obtain ⟨hlt, hget⟩ := List.getElem?_eq_some_iff.1 hw
          simp only [Option.map_some]
          rw [ih (by omega), List.drop_eq_getElem_cons hlt, hget,
            List.take_succ_cons, Nat.add_right_comm k 1 n]
          rfl
      | none =>
          have hge := List.getElem?_eq_none_iff.1 hw
          rw [Nat.min_eq_right (by omega), List.drop_of_length_le hge,
            List.take_nil, Nat.le_antisymm hk (hlen ▸ hge)]
          rfl

theorem Gives.takeAll_seek (h : dec.Gives v) (hk : k ≤ dec.size) :
    (dec.seek k).takeAll = (v.drop k, dec.seek dec.size) := by
  have hlen := h.length_eq
  rw [takeAll, h.take_seek hk, remaining_seek, List.take_of_length_le,
    Nat.min_eq_right (by omega)]
  rw [List.length_drop]
  omega

end KroneckerCode.Decoder

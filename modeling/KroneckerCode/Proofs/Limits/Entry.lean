import KroneckerCode.Limits.Entry
import KroneckerCode.Proofs.MixedRadix
import KroneckerCode.Proofs.Word.Exact
import Mathlib.Data.List.Forall2

/-!
# The laws of an entry

An entry keeps bounds and a range of codes side by side, and nothing in its type
ties the two together. `Entry.Lawful` does: the codes from `hMin` to `hMax` are
as many as the vectors that the bounds allow, `hMax` is the code of the greatest
of them, and the number of codes is itself a word.

Entries are only made by `Entry.ofBounds?`. Given bounds and the code of the
greatest vector it answers exactly when the number of vectors fits; nothing else
it converts can be greater than that. What it answers is lawful.
-/

namespace KroneckerCode.Limits.Entry

open MixedRadix

variable {s : WordSize} {e : Entry s}

/-- The bounds of the components as natural numbers. -/
def digitBounds (e : Entry s) : List Nat := e.bounds.map fun b => b.toInt.toNat

/-- What ties the bounds of an entry to its range of codes. -/
structure Lawful (e : Entry s) : Prop where
  one_le_bound : ∀ b ∈ e.bounds, 1 ≤ b.toInt
  hMin_eq : e.hMin.toInt = -e.hMax.toInt
  delta_eq : e.delta.toInt = e.hMax.toInt - e.hMin.toInt
  count_eq : (count e.digitBounds : Int) = e.delta.toInt + 1
  hMax_eq : e.hMax.toInt = dot (places e.digitBounds) e.digitBounds
  delta_succ_le : e.delta.toInt + 1 ≤ s.maxValue

/-- Whether the vector has a component for each bound, and each is within its
bound. -/
def Allows (e : Entry s) (v : List (Word s)) : Prop :=
  List.Forall₂ (fun b n => -b.toInt ≤ n.toInt ∧ n.toInt ≤ b.toInt) e.bounds v

@[simp] theorem length_digitBounds (e : Entry s) :
    e.digitBounds.length = e.dimension := List.length_map _

theorem Allows.length_eq {v : List (Word s)} (h : e.Allows v) :
    v.length = e.dimension := (List.Forall₂.length_eq h).symm

/-- Every component has a bound. -/
theorem Allows.exists_bound {v : List (Word s)} {n : Word s} (h : e.Allows v)
    (hn : n ∈ v) : ∃ b ∈ e.bounds, -b.toInt ≤ n.toInt ∧ n.toInt ≤ b.toInt := by
  obtain ⟨i, hi, rfl⟩ := List.getElem_of_mem hn
  have hb : i < e.bounds.length := by rw [List.Forall₂.length_eq h]; exact hi
  exact ⟨_, List.getElem_mem hb, List.Forall₂.get h hb hi⟩

theorem lawful_empty : (empty : Entry s).Lawful where
  one_le_bound _ hb := absurd hb List.not_mem_nil
  hMin_eq := by simp only [empty, Word.toInt_zero, Int.neg_zero]
  delta_eq := by simp only [empty, Word.toInt_zero, Int.sub_self]
  count_eq := by
    simp only [empty, digitBounds, List.map_nil, count, Word.toInt_zero]
    rfl
  hMax_eq := by
    simp only [empty, digitBounds, List.map_nil, Word.toInt_zero]
    rfl
  delta_succ_le := by
    simp only [empty, Word.toInt_zero]
    cases s <;> decide

/-! ## What a lawful entry gives -/

theorem Lawful.hMax_nonneg (h : e.Lawful) : 0 ≤ e.hMax.toInt := by
  rw [h.hMax_eq]
  exact Int.natCast_nonneg _

/-- The number of vectors is a word, and so is all that is not above it. -/
theorem Lawful.holds (h : e.Lawful) {n : Int}
    (h₁ : -(count e.digitBounds : Int) ≤ n)
    (h₂ : n ≤ count e.digitBounds) : s.Holds n := by
  have hcount : s.Holds (count e.digitBounds : Int) := by
    refine ⟨?_, by rw [h.count_eq]; exact h.delta_succ_le⟩
    simp only [WordSize.minValue]
    omega
  exact hcount.of_abs_le h₁ h₂

theorem two_mul_bound_lt_count {b : Word s} (hb : b ∈ e.bounds) :
    2 * b.toInt < count e.digitBounds := by
  have hle := base_le_count
    (List.mem_map_of_mem (f := fun b : Word s => b.toInt.toNat) hb)
  rw [base] at hle
  simp only [digitBounds]
  omega

theorem Lawful.getElem?_digitBounds (h : e.Lawful) {k : Nat} {b : Word s}
    (hb : e.bounds[k]? = some b) :
    ∃ β : Nat, b.toInt = β ∧ e.digitBounds[k]? = some β := by
  have hpos := h.one_le_bound b (List.mem_of_getElem? hb)
  refine ⟨b.toInt.toNat, by omega, ?_⟩
  rw [digitBounds, List.getElem?_map, hb, Option.map_some]

/-- Bounds that are positive words are the same numbers without a sign. -/
theorem forall₂_iff_allows {bs v : List (Word s)}
    (hpos : ∀ b ∈ bs, 1 ≤ b.toInt) :
    List.Forall₂ (fun b n => -b.toInt ≤ n.toInt ∧ n.toInt ≤ b.toInt) bs v ↔
      MixedRadix.Allows (bs.map fun b => b.toInt.toNat)
        (v.map Word.toInt) := by
  induction bs generalizing v with
  | nil =>
      cases v with
      | nil => simp [MixedRadix.Allows]
      | cons n v => simp [MixedRadix.Allows]
  | cons b bs ih =>
      have hb := hpos b List.mem_cons_self
      have hcast : (b.toInt.toNat : Int) = b.toInt := by omega
      cases v with
      | nil => simp [MixedRadix.Allows]
      | cons n v =>
          rw [List.forall₂_cons, List.map_cons, List.map_cons,
            MixedRadix.Allows, hcast,
            ih fun b' hb' => hpos b' (List.mem_cons_of_mem _ hb')]

theorem Lawful.allows_iff (h : e.Lawful) {v : List (Word s)} :
    e.Allows v ↔ MixedRadix.Allows e.digitBounds (v.map Word.toInt) :=
  forall₂_iff_allows h.one_le_bound

theorem Lawful.contains_zero (h : e.Lawful) : e.Contains 0 := by
  have hlo := h.hMin_eq
  have hhi := h.hMax_nonneg
  rw [Contains, Word.le_iff, Word.le_iff, Word.toInt_zero]
  omega

theorem Lawful.allows_of_abs_le_one (h : e.Lawful) {v : List (Word s)}
    (hlen : v.length = e.dimension)
    (hv : ∀ n ∈ v, -1 ≤ n.toInt ∧ n.toInt ≤ 1) : e.Allows v := by
  refine List.forall₂_of_length_eq_of_get hlen.symm fun i h₁ h₂ => ?_
  have hb := h.one_le_bound _ (List.get_mem e.bounds ⟨i, h₁⟩)
  have hn := hv _ (List.get_mem v ⟨i, h₂⟩)
  omega

/-! ## Making entries -/

theorem mapM_ofInt?_eq_some_iff {bounds : List Nat} {ws : List (Word s)} :
    (bounds.mapM fun b : Nat => (Word.ofInt? b : Option (Word s))) = some ws ↔
      ws.map Word.toInt = bounds.map Nat.cast := by
  induction bounds generalizing ws with
  | nil =>
      rw [List.mapM_nil, List.map_nil, List.map_eq_nil_iff, Option.pure_def,
        Option.some.injEq, eq_comm]
  | cons b bs ih =>
      rw [List.mapM_cons, List.map_cons]
      simp only [Option.bind_eq_bind, Option.bind_eq_some_iff, Option.pure_def,
        Option.some.injEq, ih, Word.ofInt?_eq_some_iff]
      constructor
      · rintro ⟨w, hw, ws', hws', rfl⟩
        rw [List.map_cons, hw, hws']
      · intro h
        cases ws with
        | nil => cases h
        | cons w ws =>
            rw [List.map_cons, List.cons.injEq] at h
            exact ⟨w, h.1, ws, h.2, rfl⟩

theorem ofBounds?_eq_some_iff {bounds : List Nat} {hMax : Nat} :
    ofBounds? bounds hMax = some e ↔
      e.bounds.map Word.toInt = bounds.map Nat.cast ∧
        e.hMin.toInt = -hMax ∧ e.hMax.toInt = hMax ∧
        e.delta.toInt = hMax - -hMax ∧
        s.Holds ((hMax : Int) - -hMax + 1) := by
  simp only [ofBounds?, Option.bind_eq_bind, Option.bind_eq_some_iff,
    Option.pure_def, Option.some.injEq, Word.ofInt?_eq_some_iff,
    mapM_ofInt?_eq_some_iff]
  constructor
  · rintro ⟨n, hn, bs, hbs, lo, hlo, hi, hhi, d, hd, rfl⟩
    exact ⟨hbs, hlo, hhi, hd, hn ▸ n.holds_toInt⟩
  · rintro ⟨hbs, hlo, hhi, hd, hn⟩
    exact ⟨_, Word.toInt_ofInt hn, _, hbs, _, hlo, _, hhi, _, hd, rfl⟩

/-- The number of vectors, counted from the code of the greatest. -/
theorem count_eq_of_hMax {bounds : List Nat} {hMax : Nat}
    (hMax_eq : hMax = dot (places bounds) bounds) :
    (count bounds : Int) = hMax - -hMax + 1 := by
  have h := two_mul_dot_placesFrom 1 bounds
  rw [hMax_eq, places]
  omega

/-- An entry is made of bounds exactly if the vectors can be numbered. -/
theorem isSome_ofBounds?_iff {bounds : List Nat} {hMax : Nat}
    (hMax_eq : hMax = dot (places bounds) bounds) :
    (ofBounds? bounds hMax : Option (Entry s)).isSome ↔
      (count bounds : Int) ≤ s.maxValue := by
  have hcount := count_eq_of_hMax hMax_eq
  rw [Option.isSome_iff_exists]
  constructor
  · rintro ⟨e, he⟩
    rw [hcount]
    exact (ofBounds?_eq_some_iff.1 he).2.2.2.2.2
  · intro hle
    have hholds : s.Holds (count bounds : Int) := by
      refine ⟨?_, hle⟩
      simp only [WordSize.minValue]
      omega
    have hfit : ∀ n : Int, -(count bounds : Int) ≤ n → n ≤ count bounds →
        (Word.ofInt n : Word s).toInt = n :=
      fun n h₁ h₂ => Word.toInt_ofInt (hholds.of_abs_le h₁ h₂)
    refine ⟨⟨bounds.map fun b : Nat => Word.ofInt b, Word.ofInt (-hMax),
      Word.ofInt hMax, Word.ofInt (hMax - -hMax)⟩, ?_⟩
    refine ofBounds?_eq_some_iff.2 ⟨?_, hfit _ (by omega) (by omega),
      hfit _ (by omega) (by omega), hfit _ (by omega) (by omega),
      hcount ▸ hholds⟩
    rw [List.map_map]
    refine List.map_congr_left fun b hb => ?_
    -- a bound is below its number of digits, and so below that of vectors
    have hbase := base_le_count hb
    rw [base] at hbase
    exact hfit _ (by omega) (by omega)

/-- What is made of positive bounds and the code of the greatest vector is
lawful. -/
theorem lawful_of_ofBounds? {bounds : List Nat} {hMax : Nat}
    (one_le : ∀ b ∈ bounds, 1 ≤ b)
    (hMax_eq : hMax = dot (places bounds) bounds)
    (he : ofBounds? bounds hMax = some e) :
    e.digitBounds = bounds ∧ e.Lawful := by
  obtain ⟨hbs, hlo, hhi, hd, hn⟩ := ofBounds?_eq_some_iff.1 he
  have hdigit : e.digitBounds = bounds := by
    have h := congrArg (List.map Int.toNat) hbs
    rw [List.map_map, List.map_map] at h
    rw [digitBounds]
    simpa [Function.comp_def] using h
  refine ⟨hdigit, ?_, ?_, ?_, ?_, ?_, ?_⟩
  · intro b hb
    have hmem := List.mem_map_of_mem (f := Word.toInt) hb
    rw [hbs] at hmem
    obtain ⟨β, hβ, hcast⟩ := List.mem_map.1 hmem
    have := one_le β hβ
    omega
  · rw [hlo, hhi]
  · rw [hd, hlo, hhi]
  · rw [hdigit, hd, count_eq_of_hMax hMax_eq]
  · rw [hhi, hdigit, hMax_eq]
  · rw [hd]
    exact hn.2

end KroneckerCode.Limits.Entry

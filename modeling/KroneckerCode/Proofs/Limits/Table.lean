import KroneckerCode.Limits.Standard
import KroneckerCode.Proofs.Limits.Search

/-!
# Tables hold lawful entries

A table is built from searches, one for each dimension, until one finds nothing.
So entry `m` is what the search for `m` finds, and with the empty entry at its
head every entry of every table is lawful. That the standard tables are built
from uniform draws matters only in that no draw leaves its spread.

Which dimensions a table has does not depend on draws or parameters at all: a
dimension is there exactly if three values for every component fit.
-/

namespace KroneckerCode.Limits

variable {σ : Type} {s : WordSize}

/-- Every entry has the dimension of its index, and it is lawful. -/
def Table.Lawful (t : Table s) : Prop :=
  ∀ m e, t.get? m = some e → e.dimension = m ∧ e.Lawful

/-! ## What the searches leave in a table -/

theorem getElem?_searchFrom {draws : Draws σ} {growth fuel m i : Nat}
    {e : Entry s} (h : (searchFrom draws growth s fuel m).1[i]? = some e) :
    (Search.run draws growth s (m + i)).best = some e := by
  induction fuel generalizing m i with
  | zero => simp [searchFrom] at h
  | succ fuel ih =>
      simp only [searchFrom] at h
      split at h
      · simp at h
      · next found hfound =>
          cases i with
          | zero =>
              rw [List.getElem?_cons_zero] at h
              exact hfound.trans h
          | succ i =>
              rw [List.getElem?_cons_succ] at h
              rw [← Nat.succ_add_eq_add_succ]
              exact ih h

/-- The searches go on for as long as three values for every component fit. -/
theorem lt_length_searchFrom_iff (draws : Draws σ) (growth : Nat)
    {fuel m k : Nat} (hm : 1 ≤ m) :
    k < (searchFrom draws growth s fuel m).1.length ↔
      k < fuel ∧ (Nat.pow 3 (m + k) : Int) ≤ s.maxValue := by
  induction fuel generalizing m k with
  | zero => simp [searchFrom]
  | succ fuel ih =>
      have hfits := Search.isSome_run_best_iff draws growth s hm
      have hmono : Nat.pow 3 m ≤ Nat.pow 3 (m + k) :=
        Nat.pow_le_pow_right (by decide) (Nat.le_add_right m k)
      simp only [searchFrom]
      split
      · next hnone =>
          rw [hnone] at hfits
          simp only [Option.isSome_none, Bool.false_eq_true, false_iff] at hfits
          simp only [List.length_nil, Nat.not_lt_zero, false_iff, not_and]
          omega
      · next found hfound =>
          rw [hfound] at hfits
          have hle := hfits.1 rfl
          cases k with
          | zero => exact iff_of_true (Nat.succ_pos _) ⟨Nat.succ_pos _, hle⟩
          | succ k =>
              have htail := ih (m := m + 1) (k := k) (by omega)
              rw [List.length_cons, Nat.succ_lt_succ_iff,
                Nat.succ_lt_succ_iff, htail, Nat.succ_add_eq_add_succ]

theorem get?_searchAll_zero (draws : Draws σ) (growth : Nat) :
    (searchAll draws growth s).1.get? 0 = some Entry.empty := rfl

theorem get?_searchAll_succ (draws : Draws σ) (growth i : Nat) :
    (searchAll draws growth s).1.get? (i + 1) =
      (searchFrom draws growth s s.bits 1).1[i]? := rfl

theorem lawful_searchAll {draws : Draws σ} {growth : Nat}
    (hp : Search.Progressive draws growth) :
    (searchAll draws growth s).1.Lawful := by
  intro m e h
  cases m with
  | zero =>
      rw [get?_searchAll_zero, Option.some.injEq] at h
      rw [← h]
      exact ⟨rfl, Entry.lawful_empty⟩
  | succ i =>
      rw [get?_searchAll_succ] at h
      have hrun := getElem?_searchFrom h
      rw [Nat.add_comm] at hrun
      exact Search.lawful_of_run hp (by omega) hrun

/-- There are fewer components than a word has bits. -/
theorem lt_bits_of_pow_le {m : Nat} (h : (Nat.pow 3 m : Int) ≤ s.maxValue) :
    m < s.bits := by
  by_contra hbits
  have hpow : Nat.pow 2 m ≤ Nat.pow 3 m := Nat.pow_le_pow_left (by decide) _
  have hhalf : Nat.pow 2 (s.bits - 1) ≤ Nat.pow 2 m :=
    Nat.pow_le_pow_right (by decide) (by omega)
  simp only [WordSize.maxValue, WordSize.half, twoPow] at h
  omega

/-- The greatest dimension of a table, whatever it was searched with. -/
theorem le_maxDimension_searchAll_iff (draws : Draws σ) (growth m : Nat) :
    m ≤ (searchAll draws growth s).1.maxDimension ↔
      (Nat.pow 3 m : Int) ≤ s.maxValue := by
  show m ≤ (searchFrom draws growth s s.bits 1).1.length ↔ _
  cases m with
  | zero =>
      refine iff_of_true (Nat.zero_le _) ?_
      cases s <;> decide
  | succ k =>
      rw [Nat.succ_le_iff, lt_length_searchFrom_iff draws growth (by omega),
        Nat.add_comm]
      refine and_iff_right_of_imp fun hle => ?_
      exact Nat.lt_of_succ_lt (lt_bits_of_pow_le hle)

theorem maxDimension_searchAll_w8 (draws : Draws σ) (growth : Nat) :
    (searchAll draws growth .w8).1.maxDimension = 4 := by
  have hle := le_maxDimension_searchAll_iff (s := .w8) draws growth
  have hfour := (hle 4).2 (by decide)
  have hfive := mt (hle 5).1 (by decide)
  omega

theorem get?_of_le_maxDimension {draws : Draws σ} {growth m : Nat}
    (h : m ≤ (searchAll draws growth s).1.maxDimension) :
    ∃ e, (searchAll draws growth s).1.get? m = some e := by
  have hlt : m < (searchAll draws growth s).1.entries.length :=
    Nat.lt_succ_of_le h
  exact ⟨_, List.getElem?_eq_getElem hlt⟩

/-! ## The standard tables -/

theorem standard_eq_searchAll (s : WordSize) :
    standard s = (searchAll (Draws.uniform 5) 2 s).1 := by
  rw [standard_eq, defaultTable]

theorem lawful_standard (s : WordSize) : (standard s).Lawful := by
  rw [standard_eq_searchAll]
  have hvalid : ({} : Config).validate = .ok () := rfl
  exact lawful_searchAll
    (Search.Progressive.of_valid hvalid (Draws.within_uniform 5))

theorem maxDimension_standard_w8 : (standard .w8).maxDimension = 4 := by
  rw [standard_eq_searchAll, maxDimension_searchAll_w8]

theorem get?_standard_zero (s : WordSize) :
    (standard s).get? 0 = some Entry.empty := by
  rw [standard_eq_searchAll]
  exact get?_searchAll_zero _ _

theorem get?_standard_of_le {m : Nat} (h : m ≤ (standard s).maxDimension) :
    ∃ e, (standard s).get? m = some e := by
  rw [standard_eq_searchAll] at h ⊢
  exact get?_of_le_maxDimension h

theorem get?_standard_of_lt {m : Nat} (h : (standard s).maxDimension < m) :
    (standard s).get? m = none := by
  rw [standard_eq_searchAll] at h ⊢
  exact List.getElem?_eq_none h

/-! ## Every entry is lawful -/

theorem buildWith_of_validate (dice : Nat → Draws σ) (s : WordSize)
    {config : Config} (hv : config.validate = .ok ()) :
    buildWith dice s config =
      .ok (searchAll (dice config.percent) config.growth s).1 := by
  rw [buildWith, buildLoggedWith, hv]
  rfl

theorem lawful_of_buildWith {dice : Nat → Draws σ} {config : Config}
    {t : Table s} (hd : (dice config.percent).Within config.percent)
    (h : buildWith dice s config = .ok t) : t.Lawful := by
  cases hv : config.validate with
  | error err =>
      rw [buildWith, buildLoggedWith, hv] at h
      cases h
  | ok =>
      rw [buildWith_of_validate dice s hv, Except.ok.injEq] at h
      rw [← h]
      exact lawful_searchAll (Search.Progressive.of_valid hv hd)

/-- Whatever is drawn within the spread, what a search with valid parameters
finds is a lawful entry of its dimension. So the tables of valid parameters hold
lawful entries, and the standard tables do. -/
theorem found_entries_lawful :
    (∀ {σ : Type} (draws : Draws σ) (config : Config) (s : WordSize) (m : Nat)
        (e : Entry s),
      config.validate = .ok () → draws.Within config.percent → 1 ≤ m →
      (Search.run draws config.growth s m).best = some e →
      e.dimension = m ∧ e.Lawful) ∧
    (∀ {σ : Type} (dice : Nat → Draws σ) (config : Config) (s : WordSize)
        (t : Table s),
      (dice config.percent).Within config.percent →
      buildWith dice s config = .ok t → t.Lawful) ∧
    ∀ s : WordSize, (standard s).Lawful := by
  refine ⟨?_, ?_, lawful_standard⟩
  · intro σ draws config s m e hv hd hm h
    exact Search.lawful_of_run (Search.Progressive.of_valid hv hd) hm h
  · intro σ dice config s t hd h
    exact lawful_of_buildWith hd h

/-- Draws that are all the same. -/
def constantDraws (draw : Int) : Draws Unit where
  seeded _ := ()
  next _ := (draw, ())

theorem within_constantDraws {draw : Int} {spread : Nat}
    (hlo : -(spread : Int) ≤ draw) (hhi : draw ≤ spread) :
    (constantDraws draw).Within spread := fun _ => ⟨hlo, hhi⟩

/-- The greatest spread there may be, and nothing but least draws. -/
theorem found_entries_lawful_least_draws :
    (constantDraws (-49)).Within 49 ∧
      (Search.run (constantDraws (-49)) 2 .w16 3).best =
        some ⟨[11, 11, 17], -9257, 9257, 18514⟩ ∧
      (⟨[11, 11, 17], -9257, 9257, 18514⟩ : Entry .w16).Lawful ∧
      ∃ t, buildWith (fun _ => constantDraws (-49)) .w16 ⟨49, 2⟩ = .ok t ∧
        t.Lawful := by
  have hd : (constantDraws (-49)).Within 49 := by
    intro _
    show (-49 : Int) ≤ -49 ∧ (-49 : Int) ≤ 49
    decide
  have hrun : (Search.run (constantDraws (-49)) 2 .w16 3).best =
      some ⟨[11, 11, 17], -9257, 9257, 18514⟩ := by decide +kernel
  have hvalid : (⟨49, 2⟩ : Config).validate = .ok () := rfl
  have hbuild :=
    buildWith_of_validate (fun _ => constantDraws (-49)) .w16 hvalid
  exact ⟨hd, hrun,
    (found_entries_lawful.1 _ _ .w16 3 _ hvalid hd (by decide) hrun).2,
    _, hbuild, found_entries_lawful.2.1 _ ⟨49, 2⟩ .w16 _ hd hbuild⟩

end KroneckerCode.Limits

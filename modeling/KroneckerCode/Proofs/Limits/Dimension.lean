import KroneckerCode.Proofs.Limits.Table
import Mathlib.Order.Bounds.Basic

/-!
# Which dimensions there are

A dimension can be asked for on its own, or the table of all dimensions can be
built. Both run the same searches, but the table stops at the first one that
finds nothing. It loses nothing by that. Whether a search finds an entry is
settled by its first state, where every component has three values: the entry is
there exactly if `3 ^ m` fits, and if that fails for one dimension it fails for
every greater one. So the answer for a dimension asked for on its own is the
look-up in the table, for every dimension (`findWith_eq_get?`), and neither
growth nor spread nor any draw has a part in which dimensions there are.

Unusable parameters are found before any search, so they are refused for every
dimension, zero included, and for the table alike.
-/

namespace KroneckerCode.Limits

variable {σ : Type} {s : WordSize}

theorem Table.exists_get?_of_lt {t : Table s} {m : Nat} (h : m < t.size) :
    ∃ e, t.get? m = some e := ⟨_, List.getElem?_eq_getElem h⟩

theorem Table.get?_of_le {t : Table s} {m : Nat} (h : t.size ≤ m) :
    t.get? m = none := List.getElem?_eq_none h

/-! ## Parameters that are refused -/

theorem validate_eq_invalidConfig_iff (config : Config) :
    (∃ text, config.validate = .error (.invalidConfig text)) ↔
      config.growth < 2 ∨ 50 ≤ config.percent := by
  unfold Config.validate
  split_ifs with hgrowth hpercent
  · exact iff_of_true ⟨_, rfl⟩ (Or.inl hgrowth)
  · exact iff_of_true ⟨_, rfl⟩ (Or.inr hpercent)
  · refine iff_of_false ?_ (not_or.2 ⟨hgrowth, hpercent⟩)
    rintro ⟨text, h⟩
    cases h

/-! ## One dimension and the table of all -/

theorem findWith_of_validate (dice : Nat → Draws σ) (s : WordSize) (m : Nat)
    {config : Config} (hv : config.validate = .ok ()) :
    findWith dice s m config =
      .ok (if m = 0 then some Entry.empty else
        (Search.run (dice config.percent) config.growth s m).best) := by
  rw [findWith, findLoggedWith, hv]
  by_cases hm : m = 0
  · simp only [hm, if_true]
    rfl
  · simp only [hm, if_false]
    rfl

/-! Nothing but the parameters can be refused. -/

theorem findWith_eq_error_iff (dice : Nat → Draws σ) (s : WordSize) (m : Nat)
    (config : Config) (err : CodecError) :
    findWith dice s m config = .error err ↔ config.validate = .error err := by
  cases hv : config.validate with
  | error err' =>
      rw [findWith, findLoggedWith, hv]
      show (.error err' : Except CodecError (Option (Entry s))) = _ ↔ _
      rw [Except.error.injEq, Except.error.injEq]
  | ok =>
      rw [findWith_of_validate dice s m hv]
      exact iff_of_false (fun h => by cases h) fun h => by cases h

theorem buildWith_eq_error_iff (dice : Nat → Draws σ) (s : WordSize)
    (config : Config) (err : CodecError) :
    buildWith dice s config = .error err ↔ config.validate = .error err := by
  cases hv : config.validate with
  | error err' =>
      rw [buildWith, buildLoggedWith, hv]
      show (.error err' : Except CodecError (Table s)) = _ ↔ _
      rw [Except.error.injEq, Except.error.injEq]
  | ok =>
      rw [buildWith_of_validate dice s hv]
      exact iff_of_false (fun h => by cases h) fun h => by cases h

/-- The table has the entry that a search of the dimension finds, and none
where the search finds none. -/
theorem get?_searchAll (draws : Draws σ) (growth : Nat) {m : Nat}
    (hm : 1 ≤ m) :
    (searchAll draws growth s).1.get? m =
      (Search.run draws growth s m).best := by
  have hfits := Search.isSome_run_best_iff draws growth s hm
  rw [← le_maxDimension_searchAll_iff draws growth] at hfits
  obtain ⟨i, rfl⟩ : ∃ i, m = i + 1 := ⟨m - 1, by omega⟩
  rw [get?_searchAll_succ]
  cases hget : (searchFrom draws growth s s.bits 1).1[i]? with
  | some e =>
      have hrun := getElem?_searchFrom hget
      rw [Nat.add_comm] at hrun
      exact hrun.symm
  | none =>
      have hlen := List.getElem?_eq_none_iff.1 hget
      have hnot : ¬ i + 1 ≤ (searchAll draws growth s).1.maxDimension :=
        fun h => absurd (Nat.lt_of_lt_of_le h hlen) (Nat.lt_irrefl i)
      exact (Option.not_isSome_iff_eq_none.1 (mt hfits.1 hnot)).symm

theorem findWith_eq_get? (dice : Nat → Draws σ) (s : WordSize) (m : Nat)
    {config : Config} (hv : config.validate = .ok ()) :
    findWith dice s m config =
      .ok ((searchAll (dice config.percent) config.growth s).1.get? m) := by
  rw [findWith_of_validate dice s m hv]
  split_ifs with hm
  · rw [hm, get?_searchAll_zero]
  · rw [get?_searchAll _ _ (Nat.one_le_iff_ne_zero.2 hm)]

theorem isSome_get?_searchAll_iff (draws : Draws σ) (growth m : Nat) :
    ((searchAll draws growth s).1.get? m).isSome ↔
      (Nat.pow 3 m : Int) ≤ s.maxValue := by
  rw [← le_maxDimension_searchAll_iff draws growth]
  constructor
  · intro h
    obtain ⟨e, he⟩ := Option.isSome_iff_exists.1 h
    exact Nat.le_of_lt_succ (List.getElem?_eq_some_iff.1 he).1
  · intro h
    obtain ⟨e, he⟩ := get?_of_le_maxDimension h
    rw [he]
    rfl

theorem findWith_eq_some_iff (dice : Nat → Draws σ) (s : WordSize) (m : Nat)
    {config : Config} (hv : config.validate = .ok ()) :
    (∃ e, findWith dice s m config = .ok (some e)) ↔
      (Nat.pow 3 m : Int) ≤ s.maxValue := by
  rw [← isSome_get?_searchAll_iff (dice config.percent) config.growth,
    Option.isSome_iff_exists, findWith_eq_get? dice s m hv]
  simp only [Except.ok.injEq]

theorem findWith_eq_none_iff (dice : Nat → Draws σ) (s : WordSize) (m : Nat)
    {config : Config} (hv : config.validate = .ok ()) :
    findWith dice s m config = .ok none ↔
      ¬ (Nat.pow 3 m : Int) ≤ s.maxValue := by
  rw [← isSome_get?_searchAll_iff (dice config.percent) config.growth,
    Option.not_isSome_iff_eq_none, findWith_eq_get? dice s m hv,
    Except.ok.injEq]

theorem isGreatest_maxDimension_searchAll (draws : Draws σ) (growth : Nat) :
    IsGreatest {m : Nat | (Nat.pow 3 m : Int) ≤ s.maxValue}
      (searchAll draws growth s).1.maxDimension := by
  constructor
  · exact (le_maxDimension_searchAll_iff draws growth _).1 (Nat.le_refl _)
  · intro m hm
    exact (le_maxDimension_searchAll_iff draws growth m).2 hm

/-- Parameters are refused by both searches and for the same reason. With any
others, a dimension is found exactly if bounds of one fit in it, whatever is
drawn; the table has what is found for each dimension on its own, up to the
greatest one in which they fit, and behind that nothing is found. -/
theorem dimensions_found (dice : Nat → Draws σ) (s : WordSize)
    (config : Config) :
    (∀ m, (∃ text, findWith dice s m config = .error (.invalidConfig text)) ↔
      config.growth < 2 ∨ 50 ≤ config.percent) ∧
    ((∃ text, buildWith dice s config = .error (.invalidConfig text)) ↔
      config.growth < 2 ∨ 50 ≤ config.percent) ∧
    (config.validate = .ok () →
      (∀ m, (∃ e, findWith dice s m config = .ok (some e)) ↔
        (Nat.pow 3 m : Int) ≤ s.maxValue) ∧
      (∀ m, findWith dice s m config = .ok none ↔
        ¬ (Nat.pow 3 m : Int) ≤ s.maxValue) ∧
      ∃ t, buildWith dice s config = .ok t ∧ t.isEmpty = false ∧
        t.get? 0 = some Entry.empty ∧
        (∀ m < t.size, ∃ e, t.get? m = some e ∧
          findWith dice s m config = .ok (some e)) ∧
        (∀ m, t.size ≤ m → findWith dice s m config = .ok none) ∧
        IsGreatest {m : Nat | (Nat.pow 3 m : Int) ≤ s.maxValue}
          t.maxDimension) := by
  refine ⟨?_, ?_, ?_⟩
  · intro m
    simp only [findWith_eq_error_iff, validate_eq_invalidConfig_iff]
  · simp only [buildWith_eq_error_iff, validate_eq_invalidConfig_iff]
  · intro hv
    refine ⟨fun m => findWith_eq_some_iff dice s m hv,
      fun m => findWith_eq_none_iff dice s m hv, _,
      buildWith_of_validate dice s hv, rfl, get?_searchAll_zero _ _, ?_, ?_,
      isGreatest_maxDimension_searchAll _ _⟩
    · intro m hm
      obtain ⟨e, he⟩ := Table.exists_get?_of_lt hm
      refine ⟨e, he, ?_⟩
      rw [findWith_eq_get? dice s m hv, he]
    · intro m hm
      rw [findWith_eq_get? dice s m hv, Table.get?_of_le hm]

/-- Nine components fit in words of sixteen bits, and the parameters do not
change that. -/
theorem dimensions_found_w16 :
    (⟨49, 1000⟩ : Config).validate = .ok () ∧
    (∃ e, findWith (fun _ => constantDraws (-49)) .w16 9 ⟨49, 1000⟩ =
      .ok (some e)) ∧
    findWith (fun _ => constantDraws (-49)) .w16 10 ⟨49, 1000⟩ = .ok none ∧
    ∃ t, buildWith (fun _ => constantDraws (-49)) .w16 ⟨49, 1000⟩ = .ok t ∧
      IsGreatest {m : Nat | (Nat.pow 3 m : Int) ≤ WordSize.w16.maxValue}
        t.maxDimension := by
  obtain ⟨_, _, h⟩ :=
    dimensions_found (fun _ => constantDraws (-49)) .w16 ⟨49, 1000⟩
  have hvalid : (⟨49, 1000⟩ : Config).validate = .ok () := rfl
  obtain ⟨hsome, hnone, t, ht, _, _, _, _, hgreatest⟩ := h hvalid
  exact ⟨hvalid, (hsome 9).2 (by decide), (hnone 10).2 (by decide), t, ht,
    hgreatest⟩

end KroneckerCode.Limits

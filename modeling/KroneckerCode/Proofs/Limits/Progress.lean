import KroneckerCode.Proofs.Integer.Prime
import KroneckerCode.Proofs.Limits.Dimension

/-!
# The search goes up, and so it ends

A step shifts a number down before it rounds it up to a prime, so it is not
plain that the number rises. It does, because it was at least doubled first and
less than half of it is shifted away. `State.Rises` says that of every bound, of
every ratio between radices and of the greatest code, for one step from any
consistent state, whatever is drawn.

Then the search must end. A state that fits has a greatest code that is a word,
the greatest code rises by one at least with every step, and there are not so
many words as the fuel allows for. So the fuel is never what ends a walk:
`exists_exit` finds the first state that does not fit, and `walk_eq` says that
the walk runs through the states before it and stops there. The rounding up
inside a step ends as well, at a number that passes for a prime, and so does the
run over all dimensions, at the first power of three that is no word.
-/

namespace KroneckerCode.Limits.Search

open MixedRadix

variable {σ : Type} {draws : Draws σ} {growth : Nat} {s : WordSize}

/-! ## One step -/

/-- The ratio of every radix but the first to the one before it. -/
def ratios (radices : List Nat) : List Nat :=
  List.zipWith (· / ·) radices.tail radices

theorem ratios_placesAbove {first : Nat} (hf : 0 < first) (bs : List Nat) :
    ratios (first :: placesAbove first bs) = bs.map base := by
  induction bs generalizing first with
  | nil => rfl
  | cons b bs ih =>
      have hpos : 0 < first * base b := Nat.mul_pos hf (base_pos b)
      have htail := ih hpos
      rw [ratios, List.tail_cons] at htail
      rw [placesAbove, ratios, List.tail_cons, List.zipWith_cons_cons, htail,
        Nat.mul_div_cancel_left _ hf, List.map_cons]

theorem length_placesAbove (first : Nat) (bs : List Nat) :
    (placesAbove first bs).length = bs.length := by
  induction bs generalizing first with
  | nil => rfl
  | cons b bs ih => rw [placesAbove, List.length_cons, ih, List.length_cons]

namespace State

/-- All bounds, all ratios and the greatest code are lower in the first state. -/
structure Rises (st st' : State σ) : Prop where
  bounds : List.Forall₂ (· < ·) st.bounds st'.bounds
  ratios : List.Forall₂ (· < ·) (ratios st.radices) (ratios st'.radices)
  hMax : st.hMax < st'.hMax

theorem Consistent.ratios_eq {st : State σ} (h : st.Consistent) :
    Search.ratios st.radices = st.inner.map base := by
  rw [h.radices_eq, ratios_placesAbove Nat.one_pos]

theorem Consistent.count_eq {st : State σ} (h : st.Consistent) :
    count st.bounds = 2 * st.hMax + 1 := by
  have hcount := two_mul_dot_placesFrom 1 st.bounds
  rw [h.hMax_eq, places]
  omega

theorem bounds_ne_nil (st : State σ) : st.bounds ≠ [] := by
  rw [bounds]
  exact List.concat_ne_nil _ _

theorem Consistent.rises_step (hp : Progressive draws growth) {st : State σ}
    (h : st.Consistent) : st.Rises (st.step draws growth) := by
  have hnext := h.step hp
  have hinner := growBounds_lt hp h.one_le_inner st.stream
  have hbounds : List.Forall₂ (· < ·) st.bounds (st.step draws growth).bounds := by
    rw [step_eq hp h]
    exact List.rel_append hinner
      (.cons (lt_perturb_widen hp _ h.one_le_last) .nil)
  refine ⟨hbounds, ?_, ?_⟩
  · rw [h.ratios_eq, hnext.ratios_eq, step_eq hp h, List.forall₂_map_left_iff,
      List.forall₂_map_right_iff]
    refine hinner.imp fun b b' hlt => ?_
    rw [base, base]
    omega
  · have hlt := count_lt_count hbounds st.bounds_ne_nil
    rw [h.count_eq, hnext.count_eq] at hlt
    omega

/-! ## Step after step -/

theorem after_succ (st : State σ) (k : Nat) :
    st.after draws growth (k + 1) =
      (st.after draws growth k).step draws growth :=
  Function.iterate_succ_apply' _ _ _

theorem Consistent.hMax_add_le (hp : Progressive draws growth) {st : State σ}
    (h : st.Consistent) (k : Nat) :
    st.hMax + k ≤ (st.after draws growth k).hMax := by
  induction k with
  | zero => exact Nat.le_refl _
  | succ k ih =>
      have hrise := ((h.after hp k).1.rises_step hp).hMax
      rw [after_succ]
      omega

theorem Consistent.length_radices {st : State σ} (h : st.Consistent) :
    st.radices.length = st.bounds.length := by
  rw [h.radices_eq, bounds, List.length_cons, length_placesAbove,
    List.length_append, List.length_singleton]

/-- The draws to come have no part in what a state is. -/
theorem Consistent.withStream {st : State σ} (h : st.Consistent) (stream : σ) :
    ({ st with stream := stream } : State σ).Consistent :=
  ⟨h.one_le_inner, h.one_le_last, h.radices_eq⟩

/-- The state after `k` steps is the first that does not fit. -/
structure ExitsAt (draws : Draws σ) (growth : Nat) (s : WordSize)
    (st : State σ) (k : Nat) : Prop where
  fits : ∀ j < k, ((st.after draws growth j).entryIn? s).isSome
  exceeds : (st.after draws growth k).entryIn? s = none

theorem Consistent.hMax_lt_half {st : State σ} (h : st.Consistent)
    (hfits : (st.entryIn? s).isSome) : st.hMax < s.half := by
  have hle := h.isSome_entryIn?_iff.1 hfits
  rw [h.count_eq, WordSize.maxValue] at hle
  omega

/-- There is a first state that does not fit, and it comes before the fuel of
a search ends. -/
theorem exists_exit (hp : Progressive draws growth) (s : WordSize)
    {st : State σ} (h : st.Consistent) :
    ∃ k < s.count, st.ExitsAt draws growth s k := by
  have hexceeds : (st.after draws growth s.half).entryIn? s = none := by
    by_contra hfits
    have hlt := (h.after hp s.half).1.hMax_lt_half
      (Option.isSome_iff_ne_none.2 hfits)
    have hle := h.hMax_add_le hp s.half
    omega
  have hex : ∃ k, (st.after draws growth k).entryIn? s = none := ⟨_, hexceeds⟩
  refine ⟨Nat.find hex, ?_, ?_, Nat.find_spec hex⟩
  · have hle := Nat.find_min' hex hexceeds
    have hcount := s.count_eq
    have hpos : 0 < s.half := twoPow_pos _
    omega
  · intro j hj
    exact Option.isSome_iff_ne_none.2 (Nat.find_min hex hj)

theorem ExitsAt.step {st : State σ} {k : Nat}
    (h : st.ExitsAt draws growth s (k + 1)) :
    (st.step draws growth).ExitsAt draws growth s k where
  fits j hj := h.fits (j + 1) (Nat.succ_lt_succ hj)
  exceeds := h.exceeds

end State

/-! ## The walk -/

/-- What a walk leaves that passes `k` states and ends at the next one. -/
def exitOutcome (draws : Draws σ) (growth : Nat) (st : State σ)
    (best : Option (Entry s)) (k : Nat) : Outcome s where
  visited := (List.range (k + 1)).map fun j => (st.after draws growth j).hMax
  best := if k = 0 then best
    else (st.after draws growth (k - 1)).entryIn? s

theorem walk_eq {fuel k : Nat} {st : State σ} (best : Option (Entry s))
    (h : st.ExitsAt draws growth s k) (hk : k < fuel) :
    walk draws growth fuel st best = exitOutcome draws growth st best k := by
  induction k generalizing fuel st best with
  | zero =>
      obtain ⟨fuel, rfl⟩ : ∃ f, fuel = f + 1 := ⟨fuel - 1, by omega⟩
      have hnone : st.entryIn? s = none := h.exceeds
      rw [walk, hnone]
      rfl
  | succ k ih =>
      obtain ⟨fuel, rfl⟩ : ∃ f, fuel = f + 1 := ⟨fuel - 1, by omega⟩
      obtain ⟨e, he⟩ := Option.isSome_iff_exists.1 (h.fits 0 (Nat.succ_pos k))
      have hfound : st.entryIn? s = some e := he
      have hrest := ih (some e) h.step (by omega : k < fuel)
      rw [walk, hfound]
      simp only [hrest, exitOutcome]
      rw [List.range_succ_eq_map (n := k + 1), List.map_cons, List.map_map]
      congr 1
      -- the entry that was found is kept only if it is the last one
      cases k with
      | zero => exact hfound.symm
      | succ k => rfl

theorem run_eq {m k : Nat}
    (h : (State.seed draws m).ExitsAt draws growth s k) (hk : k < s.count) :
    run draws growth s m = exitOutcome draws growth (State.seed draws m) none k :=
  walk_eq none h hk

/-- A search passes the states that fit, up to the first one that does not. -/
theorem exists_run_eq (hp : Progressive draws growth) (s : WordSize) {m : Nat}
    (hm : 1 ≤ m) :
    ∃ k, (State.seed draws m).ExitsAt draws growth s k ∧
      run draws growth s m =
        exitOutcome draws growth (State.seed draws m) none k := by
  obtain ⟨k, hk, hexit⟩ :=
    State.exists_exit hp s (State.consistent_seed draws hm)
  exact ⟨k, hexit, run_eq hexit hk⟩

end Search

/-! ## The run over all dimensions -/

variable {σ : Type} {s : WordSize}

theorem searchFrom_congr {draws : Draws σ} {growth fuel fuel' m k : Nat}
    (hnone : (Search.run draws growth s (m + k)).best = none)
    (hfuel : k < fuel) (hfuel' : k < fuel') :
    searchFrom draws growth s fuel m = searchFrom draws growth s fuel' m := by
  -- induction on how far off the dimension is at which the run stops
  induction k generalizing m fuel fuel' with
  | zero =>
      obtain ⟨fuel, rfl⟩ : ∃ f, fuel = f + 1 := ⟨fuel - 1, by omega⟩
      obtain ⟨fuel', rfl⟩ : ∃ f, fuel' = f + 1 := ⟨fuel' - 1, by omega⟩
      rw [Nat.add_zero] at hnone
      simp only [searchFrom, hnone]
  | succ k ih =>
      obtain ⟨fuel, rfl⟩ : ∃ f, fuel = f + 1 := ⟨fuel - 1, by omega⟩
      obtain ⟨fuel', rfl⟩ : ∃ f, fuel' = f + 1 := ⟨fuel' - 1, by omega⟩
      rw [← Nat.succ_add_eq_add_succ] at hnone
      have hrest := ih hnone (Nat.lt_of_succ_lt_succ hfuel)
        (Nat.lt_of_succ_lt_succ hfuel')
      simp only [searchFrom, hrest]

/-- The run stops at the first dimension in which bounds of one do not fit, and
the fuel has no part in that. -/
theorem exists_last_dimension (draws : Draws σ) (growth : Nat) (s : WordSize) :
    ∃ M, (∀ m, 1 ≤ m → m ≤ M → (Search.run draws growth s m).best.isSome) ∧
      (Search.run draws growth s (M + 1)).best = none ∧
      ∀ fuel, M < fuel → searchFrom draws growth s fuel 1 =
        searchFrom draws growth s s.bits 1 := by
  have hlast := isGreatest_maxDimension_searchAll (s := s) draws growth
  generalize (searchAll draws growth s).1.maxDimension = M at hlast
  have hnone : (Search.run draws growth s (M + 1)).best = none := by
    rw [← Option.not_isSome_iff_eq_none,
      Search.isSome_run_best_iff draws growth s (Nat.succ_pos M)]
    exact fun h => Nat.not_succ_le_self M (hlast.2 h)
  refine ⟨M, ?_, hnone, ?_⟩
  · intro m hm hle
    rw [Search.isSome_run_best_iff draws growth s hm]
    have hpow : Nat.pow 3 m ≤ Nat.pow 3 M :=
      Nat.pow_le_pow_right (by decide) hle
    have hfits : (Nat.pow 3 M : Int) ≤ s.maxValue := hlast.1
    omega
  · intro fuel hfuel
    rw [Nat.add_comm] at hnone
    exact searchFrom_congr hnone hfuel (lt_bits_of_pow_le hlast.1)

/-- What is true of every search with these draws. A pass leads upward from
every state that is met, whatever is drawn in it. So every loop ends by itself,
and with more fuel it does the same: the rounding up to a prime, the passes of
one search, and the searches of all dimensions. -/
structure SearchesEnd (draws : Draws σ) (growth : Nat) : Prop where
  pass_rises : ∀ m k stream, 1 ≤ m →
    ∀ st : Search.State σ,
      st = { (Search.State.seed draws m).after draws growth k with
        stream := stream } →
      st.bounds.length = m ∧ st.radices.length = m ∧
        st.Rises (st.step draws growth)
  rounding_ends : ∀ a : Integer, a.nextPrime.isPrime = true
  passes_end : ∀ (s : WordSize) (m : Nat), 1 ≤ m →
    ∃ k, (Search.State.seed draws m).ExitsAt draws growth s k ∧
      Search.run draws growth s m =
        Search.exitOutcome draws growth (Search.State.seed draws m) none k ∧
      ∀ fuel, k < fuel →
        Search.walk draws growth fuel (Search.State.seed draws m) none =
          Search.run draws growth s m
  dimensions_end : ∀ s : WordSize,
    ∃ M, (∀ m, 1 ≤ m → m ≤ M → (Search.run draws growth s m).best.isSome) ∧
      (Search.run draws growth s (M + 1)).best = none ∧
      ∀ fuel, M < fuel → searchFrom draws growth s fuel 1 =
        searchFrom draws growth s s.bits 1

theorem searchesEnd_of_progressive {draws : Draws σ} {growth : Nat}
    (hp : Search.Progressive draws growth) : SearchesEnd draws growth where
  pass_rises m k stream hm st hst := by
    have hcons := ((Search.State.consistent_seed draws hm).after hp k).1
    have hlen : st.bounds.length = m := by
      rw [hst]
      exact Search.State.length_bounds_after hp hm k
    have hst' : st.Consistent := by
      rw [hst]
      exact hcons.withStream stream
    exact ⟨hlen, hst'.length_radices.trans hlen, hst'.rises_step hp⟩
  rounding_ends := Integer.isPrime_nextPrime
  passes_end s m hm := by
    obtain ⟨k, hk, hexit⟩ :=
      Search.State.exists_exit hp s (Search.State.consistent_seed draws hm)
    refine ⟨k, hexit, Search.run_eq hexit hk, fun fuel hfuel => ?_⟩
    rw [Search.run_eq hexit hk]
    exact Search.walk_eq none hexit hfuel
  dimensions_end := exists_last_dimension draws growth

/-- With valid parameters all loops end, and both searches return what the
loops leave. With others both return the reason at once. -/
theorem searches_rise_and_end (dice : Nat → Draws σ) (config : Config)
    (hd : (dice config.percent).Within config.percent) :
    (config.validate = .ok () →
      SearchesEnd (dice config.percent) config.growth ∧
      (∀ s m, findWith dice s m config = .ok (if m = 0 then some Entry.empty
        else (Search.run (dice config.percent) config.growth s m).best)) ∧
      ∀ s, buildWith dice s config =
        .ok (searchAll (dice config.percent) config.growth s).1) ∧
    ∀ err, config.validate = .error err →
      (∀ s m, findWith dice s m config = .error err) ∧
        ∀ s, buildWith dice s config = .error err := by
  constructor
  · intro hv
    exact ⟨searchesEnd_of_progressive (Search.Progressive.of_valid hv hd),
      fun s m => findWith_of_validate dice s m hv,
      fun s => buildWith_of_validate dice s hv⟩
  · intro err hv
    exact ⟨fun s m => (findWith_eq_error_iff dice s m config err).2 hv,
      fun s => (buildWith_eq_error_iff dice s config err).2 hv⟩

/-- The greatest spread there may be, the least growth, and nothing but least
draws: the first step raises every bound by no more than a unit. -/
theorem searches_rise_and_end_least_draws :
    (constantDraws (-49)).Within 49 ∧ (⟨49, 2⟩ : Config).validate = .ok () ∧
      SearchesEnd (constantDraws (-49)) 2 ∧
      (Search.State.seed (constantDraws (-49)) 3).bounds = [1, 1, 1] ∧
      ((Search.State.seed (constantDraws (-49)) 3).step
        (constantDraws (-49)) 2).bounds = [2, 2, 2] ∧
      (Search.State.seed (constantDraws (-49)) 3).Rises
        ((Search.State.seed (constantDraws (-49)) 3).step
          (constantDraws (-49)) 2) := by
  have hd : (constantDraws (-49)).Within 49 := by
    intro _
    show (-49 : Int) ≤ -49 ∧ (-49 : Int) ≤ 49
    decide
  have hvalid : (⟨49, 2⟩ : Config).validate = .ok () := rfl
  obtain ⟨hends, _⟩ :=
    (searches_rise_and_end (fun _ => constantDraws (-49)) ⟨49, 2⟩ hd).1 hvalid
  obtain ⟨_, _, hrise⟩ := hends.pass_rises 3 0 () (by decide) _ rfl
  exact ⟨hd, hvalid, hends, rfl, by decide +kernel, hrise⟩

end KroneckerCode.Limits

import KroneckerCode.Proofs.Limits.Last

/-!
# The log tells the search

Every state of a search is logged before it is known whether it fits, and so the
last event of a search is of a state that did not. The same happens one level up:
the table ends at the first dimension for which nothing is found, and the search
of that dimension has been logged as well, with its one state.

So a log can be read backward. The greatest codes it tells rise, all but the last
leave room for the number of codes to be a word, and the entry that was found is
that of the last but one (`Tells`). The log of a table is made of such pieces. Each
but the last has the entry behind it that it found, and the last one is a single
event because it found nothing (`events_searchFrom`).

Parameters that are refused are refused before anything is logged, and the
dimension zero is answered without a search.
-/

namespace KroneckerCode.Limits

variable {σ : Type} {s : WordSize}

/-! ## What is recorded -/

/-- What a search writes to its log. One that is refused writes nothing. -/
def logged {α : Type} : Except CodecError (α × List Event) → List Event
  | .ok (_, events) => events
  | .error _ => []

theorem record_trace (events : List Event) : record .trace events = events := by
  rw [record, List.filter_eq_self]
  intro e _
  cases e <;> rfl

theorem record_debug (events : List Event) :
    record .debug events = events.filter fun e => e.level = .debug := by
  refine List.filter_congr fun e _ => ?_
  cases e <;> rfl

theorem record_append (log : Level) (first second : List Event) :
    record log (first ++ second) = record log first ++ record log second :=
  List.filter_append first second

theorem record_debug_steps (m : Nat) (visited : List Nat) :
    record .debug (visited.map (Event.step m)) = [] := by
  rw [record, List.filter_eq_nil_iff]
  intro e he
  obtain ⟨h, _, rfl⟩ := List.mem_map.1 he
  exact Bool.false_ne_true

/-! ## One dimension -/

namespace Search

variable {draws : Draws σ} {growth : Nat}

/-- The greatest code of the state behind `j` steps. -/
def greatestCode (draws : Draws σ) (growth m j : Nat) : Nat :=
  (states draws growth m j).hMax

/-- What the log of a search tells that meets the states from the first one up to
the one behind `k` steps, and leaves the entry `found`. -/
structure Tells (draws : Draws σ) (growth m k : Nat)
    (found : Option (Entry s)) (events : List Event) : Prop where
  events_eq : events = (List.range (k + 1)).map fun j =>
    .step m (greatestCode draws growth m j)
  first : greatestCode draws growth m 0 = (Nat.pow 3 m - 1) / 2
  rises : ∀ i j, i < j →
    greatestCode draws growth m i < greatestCode draws growth m j
  fits : ∀ j < k, 2 * (greatestCode draws growth m j : Int) + 1 ≤ s.maxValue
  exceeds : s.maxValue < 2 * (greatestCode draws growth m k : Int) + 1
  found_eq_none_iff : found = none ↔ k = 0
  hMax_eq : ∀ e, found = some e →
    e.hMax.toInt = greatestCode draws growth m (k - 1)

theorem strictMono_greatestCode (hp : Progressive draws growth) {m : Nat}
    (hm : 1 ≤ m) : StrictMono (greatestCode draws growth m) := by
  refine strictMono_nat_of_lt_succ fun j => ?_
  have hrise := ((consistent_states hp hm j).rises_step hp).hMax
  rw [greatestCode, greatestCode, states_succ]
  exact hrise

theorem greatestCode_zero (draws : Draws σ) (growth : Nat) {m : Nat}
    (hm : 1 ≤ m) :
    greatestCode draws growth m 0 = (Nat.pow 3 m - 1) / 2 := by
  have hcount := (State.consistent_seed draws hm).count_eq
  rw [State.count_bounds_seed draws hm] at hcount
  show (State.seed draws m).hMax = _
  omega

/-- The events of a search for dimension `m`. -/
def events (draws : Draws σ) (growth : Nat) (s : WordSize) (m : Nat) :
    List Event :=
  (run draws growth s m).visited.map (Event.step m)

theorem tells_run (hp : Progressive draws growth) (s : WordSize) {m : Nat}
    (hm : 1 ≤ m) :
    ∃ k, Tells draws growth m k (run draws growth s m).best
      (events draws growth s m) := by
  obtain ⟨k, hexit, hrun⟩ := exists_run_eq hp s hm
  have hfits : ∀ j, 2 * (greatestCode draws growth m j : Int) + 1 ≤ s.maxValue ↔
      j < k := fun j =>
    (consistent_states hp hm j).fits_iff.symm.trans
      (hexit.fits_iff hp (State.consistent_seed draws hm) j)
  rw [events, hrun]
  refine ⟨k, ?_, greatestCode_zero draws growth hm,
    fun i j h => strictMono_greatestCode hp hm h, fun j => (hfits j).2,
    Int.not_le.1 (mt (hfits k).1 (Nat.lt_irrefl k)), ?_, ?_⟩
  · rw [exitOutcome, List.map_map]
    rfl
  · cases k with
    | zero => exact iff_of_true rfl rfl
    | succ k =>
        refine iff_of_false ?_ (Nat.succ_ne_zero k)
        exact Option.isSome_iff_ne_none.1 (hexit.fits k (Nat.lt_succ_self k))
  · intro e he
    cases k with
    | zero => cases he
    | succ k => exact (Entry.ofBounds?_eq_some_iff.1 he).2.2.1

/-- The search that finds nothing tells of one state. -/
theorem events_of_run_eq_none (hp : Progressive draws growth) {m : Nat}
    (hm : 1 ≤ m) (h : (run draws growth s m).best = none) :
    events draws growth s m = [.step m ((Nat.pow 3 m - 1) / 2)] := by
  obtain ⟨k, htells⟩ := tells_run hp s hm
  obtain rfl : k = 0 := htells.found_eq_none_iff.1 h
  rw [htells.events_eq, ← htells.first]
  rfl

end Search

/-! ## All dimensions -/

variable {draws : Draws σ} {growth : Nat}

/-- The entries behind the empty one, each with its dimension. -/
def Table.numbered (t : Table s) : List (Entry s × Nat) :=
  t.entries.tail.zipIdx 1

theorem Table.map_snd_numbered (t : Table s) :
    t.numbered.map Prod.snd = List.range' 1 t.maxDimension := by
  rw [numbered, List.zipIdx_map_snd, List.length_tail]
  rfl

theorem Table.mem_numbered_iff {t : Table s} {p : Entry s × Nat} :
    p ∈ t.numbered ↔ 1 ≤ p.2 ∧ t.get? p.2 = some p.1 := by
  rw [numbered, List.mem_zipIdx_iff_le_and_getElem?_sub, List.getElem?_tail]
  refine and_congr_right fun hle => ?_
  rw [Nat.sub_add_cancel hle, get?]

/-- The event of an entry and its dimension. -/
def derivation (p : Entry s × Nat) : Event :=
  .derived s.name p.2 (toString p.1)

/-- What the log of a table tells, if `steps` are the events of the search for
each dimension. -/
structure TellsAll (steps : Nat → List Event) (t : Table s)
    (events : List Event) : Prop where
  dimensions : t.numbered.map Prod.snd = List.range' 1 t.maxDimension
  entries : ∀ p ∈ t.numbered, t.get? p.2 = some p.1
  events_eq : events =
    t.numbered.flatMap (fun p => steps p.2 ++ [derivation p]) ++
      [.step (t.maxDimension + 1) ((Nat.pow 3 (t.maxDimension + 1) - 1) / 2),
        .built s.name t.maxDimension]
  debug_eq : record .debug events =
    t.numbered.map derivation ++ [.built s.name t.maxDimension]

/-- The searches from dimension `m` on are logged one after the other, each with
the entry that it found. The one that found nothing comes last. -/
theorem events_searchFrom (hp : Search.Progressive draws growth)
    {fuel m : Nat} (hm : 1 ≤ m)
    (hfuel : (searchFrom draws growth s fuel m).1.length < fuel) :
    (searchFrom draws growth s fuel m).2 =
      ((searchFrom draws growth s fuel m).1.zipIdx m).flatMap (fun p =>
        Search.events draws growth s p.2 ++ [derivation p]) ++
      [.step (m + (searchFrom draws growth s fuel m).1.length)
        ((Nat.pow 3 (m + (searchFrom draws growth s fuel m).1.length) - 1) / 2)] := by
  induction fuel generalizing m with
  | zero => cases hfuel
  | succ fuel ih =>
      cases hbest : (Search.run draws growth s m).best with
      | none =>
          simp only [searchFrom, hbest]
          exact Search.events_of_run_eq_none hp hm hbest
      | some e =>
          have hdim := (Search.lawful_of_run hp hm hbest).1
          simp only [searchFrom, hbest] at hfuel ⊢
          rw [ih (Nat.le_succ_of_le hm) (Nat.lt_of_succ_lt_succ hfuel)]
          rw [List.zipIdx_cons, List.flatMap_cons, List.length_cons, derivation,
            hdim, Nat.succ_add_eq_add_succ]
          simp only [List.append_assoc, List.cons_append, List.nil_append]
          rfl

theorem events_searchAll (hp : Search.Progressive draws growth)
    {t : Table s} (ht : (searchAll draws growth s).1 = t) :
    (searchAll draws growth s).2 =
      t.numbered.flatMap (fun p =>
        Search.events draws growth s p.2 ++ [derivation p]) ++
      [.step (t.maxDimension + 1) ((Nat.pow 3 (t.maxDimension + 1) - 1) / 2),
        .built s.name t.maxDimension] := by
  subst ht
  have hfuel : (searchFrom draws growth s s.bits 1).1.length < s.bits :=
    lt_bits_of_pow_le (isGreatest_maxDimension_searchAll draws growth).1
  have hevents := events_searchFrom hp (Nat.le_refl 1) hfuel
  simp only [searchAll, hevents, List.append_assoc]
  rw [Nat.add_comm 1]
  rfl

/-- The events of the searches are of the finest level, those of the entries are
not. -/
theorem record_debug_flatMap (draws : Draws σ) (growth : Nat)
    (ps : List (Entry s × Nat)) :
    record .debug (ps.flatMap fun p =>
      Search.events draws growth s p.2 ++ [derivation p]) =
      ps.map derivation := by
  rw [record, List.filter_flatMap, List.map_eq_flatMap]
  refine List.flatMap_congr fun p _ => ?_
  show record .debug (Search.events draws growth s p.2 ++ [derivation p]) = _
  rw [record_append, Search.events, record_debug_steps]
  rfl

/-! ## Both searches -/

theorem findLoggedWith_of_validate (dice : Nat → Draws σ) (s : WordSize)
    {m : Nat} (hm : 1 ≤ m) {config : Config} (hv : config.validate = .ok ()) :
    findLoggedWith dice s m config =
      .ok ((Search.run (dice config.percent) config.growth s m).best,
        Search.events (dice config.percent) config.growth s m) := by
  rw [findLoggedWith, hv]
  simp only [Nat.ne_of_gt hm, if_false]
  rfl

theorem buildLoggedWith_of_validate (dice : Nat → Draws σ) (s : WordSize)
    {config : Config} (hv : config.validate = .ok ()) :
    buildLoggedWith dice s config =
      .ok (searchAll (dice config.percent) config.growth s) := by
  rw [buildLoggedWith, hv]
  rfl

theorem tellsAll_searchAll {dice : Nat → Draws σ} {config : Config}
    (hv : config.validate = .ok ())
    (hd : (dice config.percent).Within config.percent) (s : WordSize) :
    TellsAll (fun m => logged (findLoggedWith dice s m config))
      (searchAll (dice config.percent) config.growth s).1
      (searchAll (dice config.percent) config.growth s).2 := by
  have hp := Search.Progressive.of_valid hv hd
  have hevents := events_searchAll (s := s) hp rfl
  refine ⟨Table.map_snd_numbered _, fun p h => (Table.mem_numbered_iff.1 h).2,
    ?_, ?_⟩
  · rw [hevents]
    refine congrArg₂ _ (List.flatMap_congr fun p h => ?_) rfl
    rw [findLoggedWith_of_validate dice s (Table.mem_numbered_iff.1 h).1 hv]
    rfl
  · rw [hevents, record_append, record_debug_flatMap]
    rfl

/-- With valid parameters the log of a search tells the greatest codes of its
states, and by that what it found. The log of a table is made of these logs, with
the entries between them, up to the one event of the first dimension that there
is not. On the level of debugging only the entries and the end are recorded. With
other parameters, or for the dimension zero, there is no log. -/
theorem log_tells_search (dice : Nat → Draws σ) (s : WordSize)
    (config : Config) (hd : (dice config.percent).Within config.percent) :
    (config.validate = .ok () →
      (∀ m, 1 ≤ m → ∃ k found events,
        findLoggedWith dice s m config = .ok (found, events) ∧
          Search.Tells (dice config.percent) config.growth m k found events ∧
          record .debug events = []) ∧
      ∃ t events, buildLoggedWith dice s config = .ok (t, events) ∧
        TellsAll (fun m => logged (findLoggedWith dice s m config)) t events) ∧
    (∀ err, config.validate = .error err →
      (∀ m, findLoggedWith dice s m config = .error err ∧
        logged (findLoggedWith dice s m config) = []) ∧
      buildLoggedWith dice s config = .error err ∧
      logged (buildLoggedWith dice s config) = []) ∧
    logged (findLoggedWith dice s 0 config) = [] ∧
    ∀ events, record .trace events = events ∧
      record .debug events = events.filter fun e => e.level = .debug := by
  refine ⟨?_, ?_, ?_, fun events => ⟨record_trace events, record_debug events⟩⟩
  · intro hv
    refine ⟨fun m hm => ?_, _, _, buildLoggedWith_of_validate dice s hv,
      tellsAll_searchAll hv hd s⟩
    obtain ⟨k, htells⟩ :=
      Search.tells_run (Search.Progressive.of_valid hv hd) s hm
    exact ⟨k, _, _, findLoggedWith_of_validate dice s hm hv, htells,
      record_debug_steps m _⟩
  · intro err hv
    have hfind : ∀ m, findLoggedWith dice s m config = .error err := by
      intro m
      rw [findLoggedWith, hv]
      rfl
    have hbuild : buildLoggedWith dice s config = .error err := by
      rw [buildLoggedWith, hv]
      rfl
    exact ⟨fun m => ⟨hfind m, by rw [hfind]; rfl⟩, hbuild, by rw [hbuild]; rfl⟩
  · rw [findLoggedWith]
    cases config.validate with
    | error err => rfl
    | ok => rfl

/-- Least draws in bytes: of the five states of two components the last does not
fit, and neither do five components. Without growth there is no log. -/
theorem log_tells_search_bytes :
    (constantDraws (-49)).Within 49 ∧ (⟨49, 2⟩ : Config).validate = .ok () ∧
    findLoggedWith (fun _ => constantDraws (-49)) .w8 2 ⟨49, 2⟩ =
      .ok (some ⟨[5, 5], -60, 60, 120⟩,
        [.step 2 4, .step 2 12, .step 2 24, .step 2 60, .step 2 97]) ∧
    Search.Tells (constantDraws (-49)) 2 2 4
      (some (⟨[5, 5], -60, 60, 120⟩ : Entry .w8))
      [.step 2 4, .step 2 12, .step 2 24, .step 2 60, .step 2 97] ∧
    (∃ t before, buildLoggedWith (fun _ => constantDraws (-49)) .w8 ⟨49, 2⟩ =
      .ok (t, before ++ [.step 5 121, .built (WordSize.name .w8) 4])) ∧
    logged (buildLoggedWith (fun _ => constantDraws (-49)) .w8 ⟨49, 1⟩) = [] := by
  have hd : (constantDraws (-49)).Within 49 :=
    within_constantDraws (by decide) (by decide)
  have hvalid : (⟨49, 2⟩ : Config).validate = .ok () := rfl
  obtain ⟨hfind, t, events, hbuild, hall⟩ :=
    (log_tells_search (fun _ => constantDraws (-49)) .w8 ⟨49, 2⟩ hd).1 hvalid
  obtain ⟨_, hrefused, _⟩ :=
    log_tells_search (fun _ => constantDraws (-49)) .w8 ⟨49, 1⟩ hd
  have hlog : findLoggedWith (fun _ => constantDraws (-49)) .w8 2 ⟨49, 2⟩ =
      .ok (some ⟨[5, 5], -60, 60, 120⟩,
        [.step 2 4, .step 2 12, .step 2 24, .step 2 60, .step 2 97]) := by
    decide +kernel
  obtain ⟨k, found, steps, hsteps, htells, _⟩ := hfind 2 (by decide)
  rw [hlog, Except.ok.injEq, Prod.mk.injEq] at hsteps
  obtain ⟨rfl, rfl⟩ := hsteps
  obtain rfl : 4 = k := by
    have hlength := congrArg List.length htells.events_eq
    rw [List.length_map, List.length_range] at hlength
    exact Nat.succ.inj hlength
  have ht := buildLoggedWith_of_validate (fun _ => constantDraws (-49)) .w8 hvalid
  rw [hbuild, Except.ok.injEq] at ht
  have hmax := maxDimension_searchAll_w8 (constantDraws (-49)) 2
  rw [← ht] at hmax
  have hevents := hall.events_eq
  rw [hmax] at hevents
  exact ⟨hd, hvalid, hlog, htells, ⟨t, _, by rw [hbuild, hevents]⟩,
    (hrefused _ rfl).2.2⟩

end KroneckerCode.Limits

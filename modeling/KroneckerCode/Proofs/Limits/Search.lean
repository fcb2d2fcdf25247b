import KroneckerCode.Limits.Config
import KroneckerCode.Limits.Search
import KroneckerCode.Proofs.Integer.NextPrime
import KroneckerCode.Proofs.Limits.Entry
import Mathlib.Logic.Function.Iterate

/-!
# Every state of the search is one number system

A state keeps radices and bounds side by side, and a step computes them from
each other in turns: new radices from the ratios of old ones, new bounds from
the ratios of new radices, and the last bound on its own. `State.Consistent`
says that the radices are the places of the bounds all the same, and that no
bound is zero. It survives every step, whatever is drawn, for one reason: the
number a ratio is rounded up from is above two, so the prime is odd, so the
bound that is recovered from it has exactly as many digits as the ratio says.

`growBounds` is a step as it looks from the bounds alone, with no radix in it,
and `step_eq` says that a consistent state steps that way. Every bound rises:
less than half is shifted away from a number that was at least doubled.
-/

namespace KroneckerCode.Limits.Search

open MixedRadix

variable {σ : Type}

/-! ## One number grown, shifted and rounded up -/

/-- A shift by less than half leaves more than half. -/
theorem lt_two_mul_shift {p : Int} (h : -50 < p) {x : Nat}
    (hx : 0 < x) : (x : Int) < 2 * shift p x := by
  have hge : (x : Int) * (-49) ≤ x * p :=
    Int.mul_le_mul_of_nonneg_left (by omega) (by omega)
  rw [shift]
  generalize (x : Int) * p = n at hge ⊢
  rcases Int.le_total 0 n with hn | hn
  · have h₀ := Int.tdiv_nonneg hn (show (0 : Int) ≤ 100 by decide)
    omega
  · -- the shift is cut toward zero, so it is that of the opposite number
    have hneg : n.tdiv 100 = -((-n) / 100) := by
      rw [← Int.tdiv_eq_ediv_of_nonneg (by omega), Int.neg_tdiv, Int.neg_neg]
    omega

theorem le_nextPrime (n : Int) : n ≤ nextPrime n := by
  have h := Integer.value_le_value_nextPrime (Integer.ofInt n)
  rw [Integer.value_ofInt] at h
  rw [nextPrime]
  omega

theorem nextPrime_odd {n : Int} (h : 2 < n) : nextPrime n % 2 = 1 := by
  have hodd := Integer.value_nextPrime_of_two_lt (a := Integer.ofInt n)
    (by rw [Integer.value_ofInt]; exact h)
  rw [Integer.value_ofInt] at hodd
  rw [nextPrime]
  omega

theorem perturb_fst (draws : Draws σ) (stream : σ) (x : Nat) :
    (perturb draws stream x).1 = nextPrime (shift (draws.next stream).1 x) :=
  rfl

section

variable {draws : Draws σ} {spread : Nat}

theorem lt_two_mul_perturb (hd : draws.Within spread) (hs : spread < 50)
    (stream : σ) {x : Nat} (hx : 0 < x) :
    x < 2 * (perturb draws stream x).1 := by
  have hdraw := (hd stream).1
  have hshift := lt_two_mul_shift (p := (draws.next stream).1)
    (by omega) hx
  have hprime := le_nextPrime (shift (draws.next stream).1 x)
  rw [perturb_fst]
  omega

theorem perturb_odd (hd : draws.Within spread) (hs : spread < 50)
    (stream : σ) {x : Nat} (hx : 6 ≤ x) :
    (perturb draws stream x).1 % 2 = 1 := by
  have hdraw := (hd stream).1
  have hshift := lt_two_mul_shift (p := (draws.next stream).1) (x := x)
    (by omega) (by omega)
  rw [perturb_fst]
  exact nextPrime_odd (by omega)

end

/-! ## A step, from the bounds alone -/

/-- The places above the first, when every component but the last has the given
bounds. -/
def placesAbove (first : Nat) : List Nat → List Nat
  | [] => []
  | b :: bs => first * base b :: placesAbove (first * base b) bs

/-- The bounds of all components but the last after a step. -/
def growBounds (draws : Draws σ) (growth : Nat) (stream : σ) :
    List Nat → List Nat × σ
  | [] => ([], stream)
  | b :: bs =>
    let (ratio, stream) := perturb draws stream (base b * growth)
    let (rest, stream) := growBounds draws growth stream bs
    ((ratio - 1) / 2 :: rest, stream)

/-- The number that the last bound is rounded up from. -/
def widen (growth last : Nat) : Nat := ((2 * last + 1) * growth - 1) / 2

/-- The bound that is read off an odd ratio has as many digits as it says. -/
theorem base_half {ratio : Nat} (hodd : ratio % 2 = 1) :
    base ((ratio - 1) / 2) = ratio := by
  rw [base]
  omega

/-- The bound of the last component has no part in its place. -/
theorem placesFrom_concat (first : Nat) (bs : List Nat) (last : Nat) :
    placesFrom first (bs ++ [last]) = first :: placesAbove first bs := by
  induction bs generalizing first with
  | nil => rfl
  | cons b bs ih => rw [List.cons_append, placesFrom, ih, placesAbove]

theorem ratioBounds_placesAbove {first : Nat} (hf : 0 < first)
    (bs : List Nat) : ratioBounds (first :: placesAbove first bs) = bs := by
  induction bs generalizing first with
  | nil => rfl
  | cons b bs ih =>
      have hpos : 0 < first * base b := Nat.mul_pos hf (base_pos b)
      have hb : (base b - 1) / 2 = b := by rw [base]; omega
      rw [placesAbove, ratioBounds, Nat.mul_div_cancel_left _ hf, hb, ih hpos]

/-! Bounds of one make the powers of three. -/

theorem placesAbove_replicate_one (first k : Nat) :
    placesAbove first (List.replicate k 1) =
      (List.range k).map fun i => first * Nat.pow 3 (i + 1) := by
  induction k generalizing first with
  | zero => rfl
  | succ k ih =>
      rw [List.replicate_succ, placesAbove, ih, List.range_succ_eq_map,
        List.map_cons, List.map_map]
      refine congrArg₂ _ rfl (List.map_congr_left fun i _ => ?_)
      show first * 3 * Nat.pow 3 (i + 1) = first * (Nat.pow 3 (i + 1) * 3)
      rw [Nat.mul_assoc, Nat.mul_comm 3]

theorem count_replicate_one (k : Nat) :
    count (List.replicate k 1) = Nat.pow 3 k := by
  induction k with
  | zero => rfl
  | succ k ih =>
      rw [List.replicate_succ, count, ih]
      exact Nat.mul_comm 3 _

/-- What is known of the numbers that a search is run with. -/
structure Progressive (draws : Draws σ) (growth : Nat) : Prop where
  two_le_growth : 2 ≤ growth
  within : ∃ spread, spread < 50 ∧ draws.Within spread

theorem Progressive.growth_pos {draws : Draws σ} {growth : Nat}
    (hp : Progressive draws growth) : 0 < growth :=
  Nat.lt_of_lt_of_le Nat.two_pos hp.two_le_growth

theorem Progressive.of_valid {draws : Draws σ} {config : Config}
    (hv : config.validate = .ok ()) (hd : draws.Within config.percent) :
    Progressive draws config.growth := by
  obtain ⟨hg, hp⟩ := (Config.validate_eq_ok_iff config).1 hv
  exact ⟨hg, config.percent, hp, hd⟩

variable {draws : Draws σ} {growth : Nat}

/-- The ratio above a bound is odd after a step, and it has risen. -/
theorem Progressive.ratio (hp : Progressive draws growth) (stream : σ)
    {b : Nat} (hb : 1 ≤ b) :
    base b < (perturb draws stream (base b * growth)).1 ∧
      (perturb draws stream (base b * growth)).1 % 2 = 1 := by
  obtain ⟨spread, hs, hd⟩ := hp.within
  have hgrown : base b * 2 ≤ base b * growth :=
    Nat.mul_le_mul_left _ hp.two_le_growth
  have hbase : base b = 2 * b + 1 := rfl
  have hlt := lt_two_mul_perturb hd hs stream
    (show 0 < base b * growth by omega)
  exact ⟨by omega, perturb_odd hd hs stream (by omega)⟩

/-- The radices of a step are the places of the bounds of that step. -/
theorem growRadices_placesAbove (hp : Progressive draws growth)
    {bs : List Nat} (hbs : ∀ b ∈ bs, 1 ≤ b) {old : Nat} (hold : 0 < old)
    (new : Nat) (stream : σ) :
    growRadices draws growth old new stream (placesAbove old bs) =
      (placesAbove new (growBounds draws growth stream bs).1,
        (growBounds draws growth stream bs).2) := by
  induction bs generalizing old new stream with
  | nil => rfl
  | cons b bs ih =>
      have hb := hbs b List.mem_cons_self
      have hodd := (hp.ratio stream hb).2
      have hpos : 0 < old * base b := Nat.mul_pos hold (base_pos b)
      simp only [placesAbove, growRadices, growBounds,
        Nat.mul_div_cancel_left _ hold]
      rw [ih (fun c hc => hbs c (List.mem_cons_of_mem _ hc)) hpos]
      rw [base_half hodd, Nat.mul_comm new]

theorem growBounds_lt (hp : Progressive draws growth) {bs : List Nat}
    (hbs : ∀ b ∈ bs, 1 ≤ b) (stream : σ) :
    List.Forall₂ (· < ·) bs (growBounds draws growth stream bs).1 := by
  induction bs generalizing stream with
  | nil => exact .nil
  | cons b bs ih =>
      have hb := hbs b List.mem_cons_self
      obtain ⟨hlt, hodd⟩ := hp.ratio stream hb
      have hbase : base b = 2 * b + 1 := rfl
      refine .cons ?_ (ih (fun c hc => hbs c (List.mem_cons_of_mem _ hc)) _)
      show b < ((perturb draws stream (base b * growth)).1 - 1) / 2
      omega

theorem two_mul_le_widen (hp : Progressive draws growth) (last : Nat) :
    2 * last ≤ widen growth last := by
  have hgrown : (2 * last + 1) * 2 ≤ (2 * last + 1) * growth :=
    Nat.mul_le_mul_left _ hp.two_le_growth
  rw [widen]
  omega

theorem lt_perturb_widen (hp : Progressive draws growth) (stream : σ)
    {last : Nat} (hl : 1 ≤ last) :
    last < (perturb draws stream (widen growth last)).1 := by
  obtain ⟨spread, hs, hd⟩ := hp.within
  have hwide := two_mul_le_widen hp last
  have hlt := lt_two_mul_perturb hd hs stream
    (show 0 < widen growth last by omega)
  omega

/-! ## The states -/

namespace State

/-- The radices are the places of the bounds, and every component may move. -/
structure Consistent (st : State σ) : Prop where
  one_le_inner : ∀ b ∈ st.inner, 1 ≤ b
  one_le_last : 1 ≤ st.last
  radices_eq : st.radices = 1 :: placesAbove 1 st.inner

/-- A consistent state steps by growing its bounds. -/
theorem step_eq (hp : Progressive draws growth) {st : State σ}
    (h : st.Consistent) :
    st.step draws growth =
      { stream := (perturb draws
          (growBounds draws growth st.stream st.inner).2
          (widen growth st.last)).2
        radices := 1 ::
          placesAbove 1 (growBounds draws growth st.stream st.inner).1
        inner := (growBounds draws growth st.stream st.inner).1
        last := (perturb draws
          (growBounds draws growth st.stream st.inner).2
          (widen growth st.last)).1 } := by
  rw [step, h.radices_eq]
  simp only [growRadices_placesAbove hp h.one_le_inner Nat.one_pos,
    ratioBounds_placesAbove Nat.one_pos, widen]

theorem Consistent.step (hp : Progressive draws growth) {st : State σ}
    (h : st.Consistent) : (st.step draws growth).Consistent := by
  rw [step_eq hp h]
  refine ⟨?_, ?_, rfl⟩
  · intro b' hb'
    obtain ⟨i, hi, hget⟩ := List.mem_iff_getElem.1 hb'
    have hrise := growBounds_lt hp h.one_le_inner st.stream
    have hlt := hrise.get (i := i) (by rw [hrise.length_eq]; exact hi) hi
    rw [List.get_eq_getElem, List.get_eq_getElem, hget] at hlt
    omega
  · exact Nat.le_of_lt (Nat.lt_of_le_of_lt h.one_le_last
      (lt_perturb_widen hp _ h.one_le_last))

theorem length_inner_step (hp : Progressive draws growth) {st : State σ}
    (h : st.Consistent) :
    (st.step draws growth).inner.length = st.inner.length := by
  rw [step_eq hp h]
  exact (growBounds_lt hp h.one_le_inner st.stream).length_eq.symm

theorem Consistent.hMax_eq {st : State σ} (h : st.Consistent) :
    st.hMax = dot (places st.bounds) st.bounds := by
  rw [hMax, h.radices_eq, places, bounds, placesFrom_concat]

theorem Consistent.one_le_bounds {st : State σ} (h : st.Consistent) :
    ∀ b ∈ st.bounds, 1 ≤ b := by
  intro b hb
  rcases List.mem_append.1 hb with hinner | hlast
  · exact h.one_le_inner b hinner
  · rw [List.mem_singleton.1 hlast]
    exact h.one_le_last

/-- The entry of a consistent state is lawful, and it has its bounds. -/
theorem Consistent.lawful_of_entryIn? {s : WordSize} {st : State σ}
    (h : st.Consistent) {e : Entry s} (he : st.entryIn? s = some e) :
    e.digitBounds = st.bounds ∧ e.Lawful :=
  Entry.lawful_of_ofBounds? h.one_le_bounds h.hMax_eq he

theorem Consistent.isSome_entryIn?_iff {s : WordSize} {st : State σ}
    (h : st.Consistent) :
    (st.entryIn? s).isSome ↔ (count st.bounds : Int) ≤ s.maxValue :=
  Entry.isSome_ofBounds?_iff h.hMax_eq

theorem consistent_seed (draws : Draws σ) {m : Nat} (hm : 1 ≤ m) :
    (seed draws m).Consistent := by
  obtain ⟨k, rfl⟩ : ∃ k, m = k + 1 := ⟨m - 1, by omega⟩
  refine ⟨?_, Nat.le_refl 1, ?_⟩
  · intro b hb
    exact Nat.le_of_eq (List.eq_of_mem_replicate hb).symm
  · show (List.range (k + 1)).map (Nat.pow 3) =
      1 :: placesAbove 1 (List.replicate k 1)
    rw [placesAbove_replicate_one, List.range_succ_eq_map, List.map_cons,
      List.map_map]
    refine congrArg₂ _ rfl (List.map_congr_left fun i _ => ?_)
    exact (Nat.one_mul _).symm

theorem count_bounds_seed (draws : Draws σ) {m : Nat} (hm : 1 ≤ m) :
    count (seed draws m).bounds = Nat.pow 3 m := by
  obtain ⟨k, rfl⟩ : ∃ k, m = k + 1 := ⟨m - 1, by omega⟩
  show count (List.replicate k 1 ++ [1]) = Nat.pow 3 (k + 1)
  rw [← List.replicate_succ', count_replicate_one]

/-- The state after `k` steps. -/
def after (draws : Draws σ) (growth : Nat) (st : State σ) (k : Nat) :
    State σ := (step draws growth)^[k] st

theorem Consistent.after (hp : Progressive draws growth) {st : State σ}
    (h : st.Consistent) (k : Nat) :
    (st.after draws growth k).Consistent ∧
      (st.after draws growth k).inner.length = st.inner.length := by
  induction k with
  | zero => exact ⟨h, rfl⟩
  | succ k ih =>
      obtain ⟨hcons, hlen⟩ := ih
      rw [State.after, Function.iterate_succ_apply']
      exact ⟨hcons.step hp, (length_inner_step hp hcons).trans hlen⟩

theorem length_bounds_after (hp : Progressive draws growth) {m : Nat}
    (hm : 1 ≤ m) (k : Nat) :
    ((seed draws m).after draws growth k).bounds.length = m := by
  have hlen := ((consistent_seed draws hm).after hp k).2
  have hseed : (seed draws m).inner.length = m - 1 := List.length_replicate
  rw [bounds, List.length_append, hlen, hseed, List.length_singleton]
  omega

end State

/-! ## The walk -/

/-- What a walk keeps is the entry of a state on its way. -/
theorem walk_best {s : WordSize} {fuel : Nat} {st : State σ}
    {best : Option (Entry s)} {e : Entry s}
    (h : (walk draws growth fuel st best).best = some e) :
    best = some e ∨ ∃ k, (st.after draws growth k).entryIn? s = some e := by
  induction fuel generalizing st best with
  | zero => exact Or.inl h
  | succ fuel ih =>
      rw [walk] at h
      split at h
      · exact Or.inl h
      · next found hfound =>
          rcases ih h with hbest | ⟨k, hk⟩
          · exact Or.inr ⟨0, hfound.trans hbest⟩
          · exact Or.inr ⟨k + 1, hk⟩

theorem isSome_walk_best {s : WordSize} {fuel : Nat} {st : State σ}
    {best : Option (Entry s)} (h : best.isSome) :
    (walk draws growth fuel st best).best.isSome := by
  induction fuel generalizing st best with
  | zero => exact h
  | succ fuel ih =>
      rw [walk]
      split
      · exact h
      · exact ih rfl

theorem lawful_of_run (hp : Progressive draws growth) {s : WordSize} {m : Nat}
    (hm : 1 ≤ m) {e : Entry s}
    (h : (run draws growth s m).best = some e) :
    e.dimension = m ∧ e.Lawful := by
  rcases walk_best h with hnone | ⟨k, hk⟩
  · cases hnone
  · have hcons := ((State.consistent_seed draws hm).after hp k).1
    obtain ⟨hbounds, hlawful⟩ := hcons.lawful_of_entryIn? hk
    refine ⟨?_, hlawful⟩
    rw [← Entry.length_digitBounds, hbounds]
    exact State.length_bounds_after hp hm k

/-- A search finds an entry exactly if three values for every component fit. -/
theorem isSome_run_best_iff (draws : Draws σ) (growth : Nat) (s : WordSize)
    {m : Nat} (hm : 1 ≤ m) :
    (run draws growth s m).best.isSome ↔
      (Nat.pow 3 m : Int) ≤ s.maxValue := by
  have hfits := (State.consistent_seed draws hm).isSome_entryIn?_iff (s := s)
  rw [State.count_bounds_seed draws hm] at hfits
  obtain ⟨fuel, hfuel⟩ : ∃ fuel, s.count = fuel + 1 :=
    ⟨s.count - 1, by have := twoPow_pos s.bits; rw [WordSize.count]; omega⟩
  rw [run, hfuel, walk, ← hfits]
  split
  · next hnone => simp [hnone]
  · next e hsome =>
      rw [hsome]
      exact iff_of_true (isSome_walk_best rfl) rfl

end KroneckerCode.Limits.Search

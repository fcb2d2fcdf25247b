import KroneckerCode.Proofs.Integer.Prime
import KroneckerCode.Proofs.Limits.Last

/-!
# The radices lose nothing to a division

A step of the search reads the ratios off the old radices, by dividing each by
the one before it, and the bounds off the new ones, by dividing again and halving
what the ratio has above one. A division of integers does not say whether
something was left over, and a remainder lost here would leave bounds that do not
belong to the radices.

`State.step?` is the step in arithmetic that refuses a division which is not
exact, or is by zero. From a consistent state it is never refused. The old
radices are products of the number systems they belong to, and so are the new
ones, because every new ratio is odd. It is odd because it is a prime above two:
what a ratio or the last bound is rounded up to passes the test for primes, and a
step has raised it. Two more divisions of a step are meant to cut and are left as
they are, the one that takes a percentage and the one that widens the last bound.
-/

namespace KroneckerCode.Limits.Search

open MixedRadix

variable {σ : Type}

/-! ## The step with exact divisions -/

/-- The quotient, if the division is not by zero and leaves nothing over. -/
def quotient? (a b : Nat) : Option Nat :=
  if 0 < b ∧ b ∣ a then some (a / b) else none

/-- The new radices behind a place, if every ratio is read off exactly. -/
def growRadices? (draws : Draws σ) (growth : Nat) (old new : Nat) (stream : σ) :
    List Nat → Option (List Nat × σ)
  | [] => some ([], stream)
  | c :: cs => do
    let before ← quotient? c old
    let (ratio, stream) := perturb draws stream (before * growth)
    let (rest, stream) ← growRadices? draws growth c (ratio * new) stream cs
    return (ratio * new :: rest, stream)

/-- The bounds of neighbouring radices, if they are read off exactly. -/
def ratioBounds? : List Nat → Option (List Nat)
  | c :: c' :: cs => do
    let ratio ← quotient? c' c
    let bound ← quotient? (ratio - 1) 2
    let rest ← ratioBounds? (c' :: cs)
    return bound :: rest
  | _ => some []

/-- The radices of a step: the first one stays as it is. -/
def stepRadices? (draws : Draws σ) (growth : Nat) (stream : σ) :
    List Nat → Option (List Nat × σ)
  | [] => some ([], stream)
  | c :: cs => do
    let (rest, stream) ← growRadices? draws growth c c stream cs
    return (c :: rest, stream)

/-- A step, if it reads all ratios and bounds off without a remainder. -/
def State.step? (draws : Draws σ) (growth : Nat) (st : State σ) :
    Option (State σ) := do
  let (radices, stream) ← stepRadices? draws growth st.stream st.radices
  let inner ← ratioBounds? radices
  let (last, stream) := perturb draws stream (widen growth st.last)
  return { stream, radices, inner, last }

theorem quotient?_mul {a b : Nat} (hb : 0 < b) :
    quotient? (b * a) b = some a := by
  rw [quotient?, if_pos ⟨hb, Nat.dvd_mul_right b a⟩, Nat.mul_div_cancel_left a hb]

/-- What a number of digits has above one is twice its bound. -/
theorem quotient?_base (b : Nat) : quotient? (base b - 1) 2 = some b :=
  quotient?_mul Nat.two_pos

variable {draws : Draws σ} {growth : Nat}

theorem growRadices?_placesAbove {old : Nat} (hold : 0 < old) (new : Nat)
    (stream : σ) (bs : List Nat) :
    growRadices? draws growth old new stream (placesAbove old bs) =
      some (growRadices draws growth old new stream (placesAbove old bs)) := by
  induction bs generalizing old new stream with
  | nil => rfl
  | cons b bs ih =>
      have hpos : 0 < old * base b := Nat.mul_pos hold (base_pos b)
      simp only [placesAbove, growRadices?, growRadices, quotient?_mul hold,
        Nat.mul_div_cancel_left _ hold, ih hpos, Option.bind_eq_bind,
        Option.bind_some, Option.pure_def]

theorem ratioBounds?_placesAbove {first : Nat} (hf : 0 < first)
    (bs : List Nat) :
    ratioBounds? (first :: placesAbove first bs) = some bs := by
  induction bs generalizing first with
  | nil => rfl
  | cons b bs ih =>
      have hpos : 0 < first * base b := Nat.mul_pos hf (base_pos b)
      simp only [placesAbove, ratioBounds?, quotient?_mul hf, quotient?_base,
        ih hpos, Option.bind_eq_bind, Option.bind_some, Option.pure_def]

theorem State.Consistent.step?_eq (hp : Progressive draws growth)
    {st : State σ} (h : st.Consistent) :
    st.step? draws growth = some (st.step draws growth) := by
  rw [step_eq hp h, step?, h.radices_eq]
  simp only [stepRadices?, growRadices?_placesAbove Nat.one_pos,
    growRadices_placesAbove hp h.one_le_inner Nat.one_pos,
    ratioBounds?_placesAbove Nat.one_pos, Option.bind_eq_bind,
    Option.bind_some, Option.pure_def]

/-! ## Place by place -/

/-- The worth of a place is the number of vectors on the places before it. -/
theorem getElem?_placesAbove {first : Nat} {bs : List Nat} {i : Nat}
    (hi : i ≤ bs.length) :
    (first :: placesAbove first bs)[i]? = some (first * count (bs.take i)) := by
  induction bs generalizing first i with
  | nil =>
      obtain rfl : i = 0 := Nat.le_zero.1 hi
      rw [List.getElem?_cons_zero, List.take_nil, count, Nat.mul_one]
  | cons b bs ih =>
      cases i with
      | zero => rw [List.getElem?_cons_zero, List.take_zero, count, Nat.mul_one]
      | succ i =>
          rw [placesAbove, List.getElem?_cons_succ,
            ih (Nat.le_of_succ_le_succ hi), List.take_succ_cons, count,
            Nat.mul_assoc]

namespace State

/-- The first radix is one, and each further one is the radix before it times
the number of digits there. So the ratio and the bound are read off exactly. -/
structure Placed (st : State σ) (m : Nat) : Prop where
  length_radices : st.radices.length = m
  length_bounds : st.bounds.length = m
  first : st.radices[0]? = some 1
  next : ∀ i, i + 1 < m → ∃ c c' b,
    st.radices[i]? = some c ∧ st.radices[i + 1]? = some c' ∧
      st.bounds[i]? = some b ∧ c' = c * (2 * b + 1) ∧
      quotient? c' c = some (2 * b + 1) ∧ quotient? (2 * b + 1 - 1) 2 = some b

/-- The bounds of all components but the last come first. -/
theorem getElem?_bounds {st : State σ} {m i : Nat}
    (hlen : st.bounds.length = m) (hi : i + 1 < m) :
    ∃ b ∈ st.inner, st.inner[i]? = some b ∧ st.bounds[i]? = some b := by
  have hinner : i < st.inner.length := by
    rw [bounds, List.length_append, List.length_singleton] at hlen
    omega
  refine ⟨_, List.getElem_mem hinner, List.getElem?_eq_getElem hinner, ?_⟩
  rw [bounds, List.getElem?_append_left hinner, List.getElem?_eq_getElem hinner]

theorem getElem?_bounds_last {st : State σ} {m : Nat}
    (hlen : st.bounds.length = m) : st.bounds[m - 1]? = some st.last := by
  rw [bounds, List.length_append, List.length_singleton] at hlen
  rw [bounds, ← hlen, Nat.add_sub_cancel, List.getElem?_concat_length]

theorem Consistent.placed {st : State σ} (h : st.Consistent) {m : Nat}
    (hlen : st.bounds.length = m) : st.Placed m where
  length_radices := h.length_radices.trans hlen
  length_bounds := hlen
  first := by rw [h.radices_eq, List.getElem?_cons_zero]
  next i hi := by
    obtain ⟨b, _, hinner, hbound⟩ := getElem?_bounds hlen hi
    have hlt : i < st.inner.length := (List.getElem?_eq_some_iff.1 hinner).1
    have hradix : ∀ j ≤ st.inner.length,
        st.radices[j]? = some (count (st.inner.take j)) := by
      intro j hj
      rw [h.radices_eq, getElem?_placesAbove hj, Nat.one_mul]
    have hnext : count (st.inner.take (i + 1)) =
        count (st.inner.take i) * (2 * b + 1) := by
      rw [List.take_add_one, hinner, Option.toList_some, count_concat, base]
    refine ⟨_, _, b, hradix i (Nat.le_of_lt hlt), hradix (i + 1) hlt, hbound,
      hnext, ?_, quotient?_base b⟩
    rw [hnext]
    exact quotient?_mul (count_pos _)

end State

/-! ## Ratios are primes -/

/-- Whether the number passes for a prime, in either storage. -/
def Passes (n : Nat) : Prop := ∀ a : Integer, a.value = n → a.isPrime = true

theorem passes_nextPrime (n : Int) : Passes (nextPrime n) := by
  intro a ha
  have hpass := Integer.isPrime_nextPrime (Integer.ofInt n)
  have hone := ((Integer.isPrime_iff _).1 hpass).one_lt
  rw [nextPrime] at ha
  rw [Integer.isPrime_congr (b := (Integer.ofInt n).nextPrime) (by omega)]
  exact hpass

theorem passes_growBounds (hp : Progressive draws growth) {bs : List Nat}
    (hbs : ∀ b ∈ bs, 1 ≤ b) (stream : σ) :
    ∀ b ∈ (growBounds draws growth stream bs).1,
      5 ≤ base b ∧ Passes (base b) := by
  induction bs generalizing stream with
  | nil =>
      intro b hb
      cases hb
  | cons a bs ih =>
      have ha := hbs a List.mem_cons_self
      obtain ⟨hlt, hodd⟩ := hp.ratio stream ha
      have hrest := ih fun c hc => hbs c (List.mem_cons_of_mem _ hc)
      have hbase : base a = 2 * a + 1 := rfl
      intro b hb
      rcases List.mem_cons.1 hb with hhead | hb
      · have hratio : base b = (perturb draws stream (base a * growth)).1 := by
          rw [hhead]
          exact base_half hodd
        -- the ratio has risen from three or more, and it is odd
        rw [hratio]
        exact ⟨by omega, passes_nextPrime _⟩
      · exact hrest _ b hb

namespace State

/-- Every ratio of the radices is an odd number from five on, the last bound is a
number from two on, and all of them pass for primes. -/
structure PrimeRatios (st : State σ) (m : Nat) : Prop where
  ratio : ∀ i, i + 1 < m → ∃ c b ratio,
    st.radices[i]? = some c ∧ st.radices[i + 1]? = some (c * ratio) ∧
      st.bounds[i]? = some b ∧ ratio = 2 * b + 1 ∧
      ratio % 2 = 1 ∧ 5 ≤ ratio ∧ Passes ratio
  last : ∃ b, st.bounds[m - 1]? = some b ∧ 2 ≤ b ∧ Passes b

theorem Consistent.primeRatios_step (hp : Progressive draws growth)
    {st : State σ} (h : st.Consistent) {m : Nat}
    (hlen : (st.step draws growth).bounds.length = m) :
    (st.step draws growth).PrimeRatios m := by
  have hinner : (st.step draws growth).inner =
      (growBounds draws growth st.stream st.inner).1 := by rw [step_eq hp h]
  have hlast : (st.step draws growth).last =
      (perturb draws (growBounds draws growth st.stream st.inner).2
        (widen growth st.last)).1 := by rw [step_eq hp h]
  have hplaced := (h.step hp).placed hlen
  refine ⟨?_, _, getElem?_bounds_last hlen, ?_, ?_⟩
  · intro i hi
    obtain ⟨c, c', b, hc, hc', hb, hmul, _⟩ := hplaced.next i hi
    obtain ⟨b', hmem, _, hb'⟩ := getElem?_bounds hlen hi
    obtain rfl : b' = b := by rwa [hb, Option.some.injEq, eq_comm] at hb'
    rw [hinner] at hmem
    obtain ⟨hfive, hpass⟩ := passes_growBounds hp h.one_le_inner st.stream _ hmem
    rw [hmul] at hc'
    exact ⟨c, b', _, hc, hc', hb, rfl, by omega, hfive, hpass⟩
  · rw [hlast]
    exact Nat.lt_of_le_of_lt h.one_le_last (lt_perturb_widen hp _ h.one_le_last)
  · rw [hlast]
    exact passes_nextPrime _

end State

/-- In every state of every search the radices are the places of the bounds, and
from every state the step divides without remainder, wherever it reads a ratio or
a bound. Behind the first state all ratios are odd numbers from five on that pass
for primes, and the last bound is a number from two on that does. A search in
words of any size meets the first of these states and no others. -/
theorem radices_lose_nothing {draws : Draws σ} {config : Config}
    (hv : config.validate = .ok ()) (hd : draws.Within config.percent)
    {m : Nat} (hm : 1 ≤ m) :
    (∀ k, (states draws config.growth m k).Placed m ∧
      (states draws config.growth m k).step? draws config.growth =
        some (states draws config.growth m (k + 1)) ∧
      (1 ≤ k → (states draws config.growth m k).PrimeRatios m)) ∧
    ∀ s : WordSize, ∃ k, (run draws config.growth s m).visited =
      (List.range (k + 1)).map fun j =>
        (states draws config.growth m j).hMax := by
  have hp := Progressive.of_valid hv hd
  have hlen : ∀ j, (states draws config.growth m j).bounds.length = m :=
    State.length_bounds_after hp hm
  constructor
  · intro k
    have hcons := consistent_states hp hm k
    refine ⟨hcons.placed (hlen k), ?_, ?_⟩
    · rw [states_succ]
      exact hcons.step?_eq hp
    · intro hk
      obtain ⟨j, rfl⟩ : ∃ j, k = j + 1 := ⟨k - 1, by omega⟩
      have hnext := hlen (j + 1)
      rw [states_succ] at hnext ⊢
      exact (consistent_states hp hm j).primeRatios_step hp hnext
  · intro s
    obtain ⟨k, _, hrun⟩ := exists_run_eq hp s hm
    exact ⟨k, by rw [hrun]; rfl⟩

/-- The greatest spread there may be, the least growth and nothing but least
draws: the ratios of the second state are as small as they can be. -/
theorem radices_lose_nothing_least_draws :
    (constantDraws (-49)).Within 49 ∧ (⟨49, 2⟩ : Config).validate = .ok () ∧
    (states (constantDraws (-49)) 2 3 1).radices = [1, 5, 25] ∧
    (states (constantDraws (-49)) 2 3 1).bounds = [2, 2, 2] ∧
    (states (constantDraws (-49)) 2 3 1).Placed 3 ∧
    (states (constantDraws (-49)) 2 3 1).step? (constantDraws (-49)) 2 =
      some (states (constantDraws (-49)) 2 3 2) ∧
    (states (constantDraws (-49)) 2 3 2).radices = [1, 7, 49] ∧
    (states (constantDraws (-49)) 2 3 1).PrimeRatios 3 := by
  have hd : (constantDraws (-49)).Within 49 :=
    within_constantDraws (by decide) (by decide)
  have hvalid : (⟨49, 2⟩ : Config).validate = .ok () := rfl
  obtain ⟨hstates, _⟩ := radices_lose_nothing hvalid hd (show 1 ≤ 3 by decide)
  obtain ⟨hplaced, hstep, hprimes⟩ := hstates 1
  exact ⟨hd, hvalid, by decide +kernel, by decide +kernel, hplaced, hstep,
    by decide +kernel, hprimes (Nat.le_refl 1)⟩

end KroneckerCode.Limits.Search

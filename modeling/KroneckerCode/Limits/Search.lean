import KroneckerCode.Draws.Uniform
import KroneckerCode.Integer.Prime
import KroneckerCode.Limits.Entry
import KroneckerCode.MixedRadix

/-!
# The search for the limits of one dimension

The search walks through states. A state has a radix for each component, which
is the worth of its place, and a bound for each component; the greatest code of
the state is the sum of the bounds, each times its radix. The first state has
all bounds one and the powers of three for radices.

A step grows the ratio between neighbouring radices by the growth factor,
shifts it by a random percentage and rounds it up to a number that passes for a
prime. The new radices are the products of the new ratios, and every bound but
the last follows from the ratio above it. The last bound has no ratio above it;
it is grown on its own, as if it had. The draws are made in that order, one for
each ratio and one for the last bound.

The walk ends at the first state whose numbers do not fit in a word, and keeps
the state before it. It always ends, because the greatest code rises with every
step; the fuel is the number of words, and there are not so many codes.
-/

namespace KroneckerCode.Limits.Search

/-- The least number that is not below `n` and passes for a prime. -/
def nextPrime (n : Int) : Nat := (Integer.ofInt n).nextPrime.value.toNat

/-- The number `x` shifted by `percent` percent, the shift cut toward zero. -/
def shift (percent : Int) (x : Nat) : Int := x + (x * percent).tdiv 100

/-- One state of the search, with the draws that are left. -/
structure State (σ : Type) where
  stream : σ
  /-- The worth of each place. -/
  radices : List Nat
  /-- The bound of every component but the last. -/
  inner : List Nat
  /-- The bound of the last component. -/
  last : Nat

variable {σ : Type}

/-- Shifts by a drawn percentage and rounds up to what passes for a prime. -/
def perturb (draws : Draws σ) (stream : σ) (x : Nat) : Nat × σ :=
  let (percent, rest) := draws.next stream
  (nextPrime (shift percent x), rest)

/--
The new radices behind a place that had radix `old` and now has radix `new`.
The ratios are those of the old radices, the products those of the new.
-/
def growRadices (draws : Draws σ) (growth : Nat) (old new : Nat) (stream : σ) :
    List Nat → List Nat × σ
  | [] => ([], stream)
  | c :: cs =>
    let (ratio, stream) := perturb draws stream (c / old * growth)
    let (rest, stream) := growRadices draws growth c (ratio * new) stream cs
    (ratio * new :: rest, stream)

/-- The bounds that the ratios of neighbouring radices allow. -/
def ratioBounds : List Nat → List Nat
  | c :: c' :: cs => (c' / c - 1) / 2 :: ratioBounds (c' :: cs)
  | _ => []

namespace State

/-- The bound of every component. -/
def bounds (st : State σ) : List Nat := st.inner ++ [st.last]

/-- The greatest code: every component at its bound. -/
def hMax (st : State σ) : Nat := MixedRadix.dot st.radices st.bounds

/-- The entry of the state in words of a size, if its numbers fit. -/
def entryIn? (st : State σ) (s : WordSize) : Option (Entry s) := Entry.ofBounds? st.bounds st.hMax

/-- The first state for dimension `m`. -/
def seed (draws : Draws σ) (m : Nat) : State σ where
  stream := draws.seeded m
  radices := (List.range m).map (Nat.pow 3)
  inner := List.replicate (m - 1) 1
  last := 1

/-- The state after one step. -/
def step (draws : Draws σ) (growth : Nat) (st : State σ) : State σ :=
  let (radices, stream) :=
    match st.radices with
    | [] => ([], st.stream)
    | c :: cs =>
      -- the first place is worth one in every state
      let (rest, stream) := growRadices draws growth c c st.stream cs
      (c :: rest, stream)
  -- the last component has `2 * last + 1` digits, and that number grows like a ratio
  let (last, stream) := perturb draws stream (((2 * st.last + 1) * growth - 1) / 2)
  { stream, radices, inner := ratioBounds radices, last }

end State

/-- What a search has met. -/
structure Outcome (s : WordSize) where
  /-- The greatest code of each state, in order; the last of them did not fit. -/
  visited : List Nat
  /-- The entry of the last state that did fit. -/
  best : Option (Entry s)
deriving DecidableEq

/-- Walks on from a state behind which `best` is the last entry that fitted. -/
def walk (draws : Draws σ) (growth : Nat) {s : WordSize} :
    (fuel : Nat) → State σ → (best : Option (Entry s)) → Outcome s
  | 0, _, best => { visited := [], best }
  | fuel + 1, st, best =>
    match st.entryIn? s with
    | none =>
      -- a state that does not fit has been met all the same
      { visited := [st.hMax], best }
    | some e =>
      let rest := walk draws growth fuel (st.step draws growth) (some e)
      { rest with visited := st.hMax :: rest.visited }

/-- Searches the limits of dimension `m`, which is not zero. -/
def run (draws : Draws σ) (growth : Nat) (s : WordSize) (m : Nat) : Outcome s :=
  walk draws growth s.count (State.seed draws m) none

end KroneckerCode.Limits.Search

import KroneckerCode.Draws.Keystream

/-!
# Random draws

The search for limits shifts the numbers it grows by random percentages. All it
asks of their source is that there is one stream of draws for each seed, and
that a stream gives its draws one after the other. So the search takes the
source as an argument, and what is true of it for every source does not depend
on how the draws are made.

The source that is used draws uniformly from a symmetric interval. A draw from the `r = 2 p + 1` integers between `-p` and `p` takes a 64-bit
number `v` and looks at `v * r`: its upper half is one of `r` values, and its
lower half decides whether the draw stands. The zone ends below the greatest
product of `r` and a power of two that fits in 64 bits. A lower half above it is
refused, which makes the values equally likely, and the next number is tried;
at least half of all numbers stand.

Trying goes on for a whole period of the keystream. If no number of a period
stood, none would ever stand; the answer zero in that case is a value of the
interval like any other.
-/

namespace KroneckerCode

/-- Streams of integers, one for each seed. A `σ` is what is left of a stream. -/
structure Draws (σ : Type) where
  seeded : Nat → σ
  /-- The next draw, and the stream behind it. -/
  next : σ → Int × σ

namespace Draws

/-- Whether every draw lies between `-spread` and `spread`. -/
def Within {σ : Type} (d : Draws σ) (spread : Nat) : Prop :=
  ∀ stream, -(spread : Int) ≤ (d.next stream).1 ∧ (d.next stream).1 ≤ spread

/-- What is left of a keystream: the numbers of a key from a position on. -/
structure Stream where
  key : Keystream.Key
  position : Nat

namespace Stream

/-- The numbers of the key of a seed, from the first one on. -/
def ofSeed (seed : Nat) : Stream where
  key := Keystream.Key.ofSeed (UInt64.ofNat seed)
  position := 0

/-- The next number, and the stream behind it. -/
def next (s : Stream) : UInt64 × Stream :=
  (Keystream.number s.key s.position, { s with position := s.position + 1 })

end Stream

/-- The greatest lower half that stands, for a draw from `r` values. -/
def zone (r : Nat) : Nat := r * twoPow (63 - r.log2) - 1

/-- A draw between `-spread` and `spread` that tries as many numbers as there is fuel. -/
def drawFrom (spread : Nat) : (fuel : Nat) → Stream → Int × Stream
  | 0, s => (0, s)
  | fuel + 1, s =>
    let r := 2 * spread + 1
    -- a number is used up even where there is only one value to draw
    let (v, rest) := s.next
    let product := v.toNat * r
    if product % twoPow 64 ≤ zone r then
      ((product / twoPow 64 : Nat) - (spread : Int), rest)
    else
      drawFrom spread fuel rest

/-- Uniform draws between `-spread` and `spread`. -/
def uniform (spread : Nat) : Draws Stream where
  seeded := Stream.ofSeed
  next := drawFrom spread Keystream.period

/-- The upper half of a product with `r` is one of `r` values. -/
theorem upperHalf_lt (v : UInt64) {r : Nat} (hr : 0 < r) : v.toNat * r / twoPow 64 < r := by
  have hv : v.toNat < twoPow 64 := v.toNat_lt
  rw [Nat.div_lt_iff_lt_mul (twoPow_pos 64), Nat.mul_comm]
  exact Nat.mul_lt_mul_of_pos_left hv hr

/-- No draw leaves the interval, whether it stands or the fuel ends. -/
theorem drawFrom_within (spread fuel : Nat) (s : Stream) :
    -(spread : Int) ≤ (drawFrom spread fuel s).1 ∧ (drawFrom spread fuel s).1 ≤ spread := by
  induction fuel generalizing s with
  | zero =>
    simp only [drawFrom]
    omega
  | succ fuel ih =>
    simp only [drawFrom]
    split
    next =>
      have h := upperHalf_lt s.next.1 (Nat.succ_pos (2 * spread))
      generalize s.next.1.toNat * (2 * spread + 1) / twoPow 64 = upper at h ⊢
      simp only
      omega
    next => exact ih _

theorem within_uniform (spread : Nat) : (uniform spread).Within spread :=
  fun s => drawFrom_within spread Keystream.period s

end Draws

end KroneckerCode

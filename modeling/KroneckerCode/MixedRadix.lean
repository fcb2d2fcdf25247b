/-!
# Mixed-radix numbers with symmetric digits

A bound `b` allows the digits from `-b` to `b`, which are `2 b + 1` of them. A
list of bounds makes a number system: the place of the first digit is worth
one, and each further place is worth as much as all digits of the place before
it together. A vector with a digit for each bound then stands for one integer,
and no two vectors for the same one.
-/

namespace KroneckerCode.MixedRadix

/-- The number of digits that a bound allows. -/
def base (bound : Nat) : Nat := 2 * bound + 1

/-- The worth of each place, when the first one is worth `first`. -/
def placesFrom (first : Nat) : List Nat → List Nat
  | [] => []
  | b :: bs => first :: placesFrom (first * base b) bs

/-- The worth of each place of a number system. -/
def places (bounds : List Nat) : List Nat := placesFrom 1 bounds

/-- The number of vectors with one digit for each bound. -/
def count : List Nat → Nat
  | [] => 1
  | b :: bs => base b * count bs

/-- The sum of the products of two lists, pair by pair. -/
def dot : List Nat → List Nat → Nat
  | a :: as, b :: bs => a * b + dot as bs
  | _, _ => 0

/-- The integer that a vector stands for, when the first place is worth `first`. -/
def weighFrom (first : Nat) : List Nat → List Int → Int
  | b :: bs, d :: ds => d * first + weighFrom (first * base b) bs ds
  | _, _ => 0

/-- The integer that a vector stands for. -/
def weigh (bounds : List Nat) (digits : List Int) : Int := weighFrom 1 bounds digits

/-- Whether the vector has one digit for each bound, and each digit is allowed. -/
def Allows : List Nat → List Int → Prop
  | [], [] => True
  | b :: bs, d :: ds => (-(b : Int) ≤ d ∧ d ≤ b) ∧ Allows bs ds
  | _, _ => False

/-- Beside every digit there are as many smaller ones as larger ones left out: the range of the
codes and the number of the vectors are one apart. -/
theorem two_mul_dot_placesFrom (first : Nat) (bounds : List Nat) :
    2 * dot (placesFrom first bounds) bounds + first = first * count bounds := by
  induction bounds generalizing first with
  | nil => simp [dot, placesFrom, count]
  | cons b bs ih =>
    have h := ih (first * base b)
    simp only [dot, placesFrom, count] at h ⊢
    rw [← Nat.mul_assoc, ← h, base]
    simp only [Nat.mul_add, Nat.mul_one, Nat.mul_left_comm 2 first b]
    omega

end KroneckerCode.MixedRadix

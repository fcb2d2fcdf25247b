import KroneckerCode.Power

/-!
# Word sizes

Codes and their components are kept in signed machine words. A word size says
how wide such a word is and what it is called; `pointer` is the width of an
address, 64 bits, which is a size of its own because it has a name of its own.

Everything else about a size follows from its width `b`: a word holds exactly
the integers from `-2^(b-1)` to `2^(b-1) - 1`.
-/

namespace KroneckerCode

/-- The width of a signed machine word. -/
inductive WordSize where
  | w8 | w16 | w32 | w64 | w128 | pointer
deriving DecidableEq, Repr

namespace WordSize

/-- The width in bits. -/
def bits : WordSize → Nat
  | w8 => 8
  | w16 => 16
  | w32 => 32
  | w64 => 64
  | w128 => 128
  | pointer => 64

/-- The text that stands for the width in the name of an integer type. -/
def suffix : WordSize → String
  | w8 => "8"
  | w16 => "16"
  | w32 => "32"
  | w64 => "64"
  | w128 => "128"
  | pointer => "size"

/-- The name of the signed integer type of this size. -/
def name (s : WordSize) : String := "i" ++ s.suffix

/-- The number of values a word can take. -/
def count (s : WordSize) : Nat := twoPow s.bits

/-- The number of values below zero, which is also the number of the others. -/
def half (s : WordSize) : Nat := twoPow (s.bits - 1)

/-- The least integer that a word holds. -/
def minValue (s : WordSize) : Int := -s.half

/-- The greatest integer that a word holds. -/
def maxValue (s : WordSize) : Int := s.half - 1

/-- Whether a word of this size holds the integer `n` as it is. -/
def Holds (s : WordSize) (n : Int) : Prop := s.minValue ≤ n ∧ n ≤ s.maxValue

instance (s : WordSize) (n : Int) : Decidable (s.Holds n) :=
  inferInstanceAs (Decidable (_ ∧ _))

theorem bits_pos (s : WordSize) : 0 < s.bits := by
  cases s <;> decide

theorem count_eq (s : WordSize) : s.count = 2 * s.half := by
  have h : s.bits = s.bits - 1 + 1 := by
    have := s.bits_pos
    omega
  rw [count, h, twoPow_succ, half]

end WordSize

end KroneckerCode

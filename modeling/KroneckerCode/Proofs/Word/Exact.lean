import KroneckerCode.Word.Basic
import Mathlib.Data.List.Basic

/-!
# Word arithmetic without reduction

The machine reduces every result to the width of a word and says nothing about
it. Two facts are wanted instead. Where the exact result fits, the machine's
result denotes it: that is one lemma for each operation, and they all come from
`Word.bmod_of_holds`. And there is arithmetic that refuses a result which does
not fit, with the same answers as the machine wherever it does not refuse; a
computation in that arithmetic that is never refused is one in which nothing
was ever reduced.

Codes, places and digits are never negative, so for division and remainder
natural numbers are all that is asked for.
-/

namespace KroneckerCode

namespace WordSize

variable {s : WordSize}

/-- What lies between two integers that words hold is held as well. -/
theorem Holds.of_between {a b n : Int} (ha : s.Holds a) (hb : s.Holds b)
    (h₁ : a ≤ n) (h₂ : n ≤ b) : s.Holds n :=
  ⟨Int.le_trans ha.1 h₁, Int.le_trans h₂ hb.2⟩

/-- There is a negative word for every positive one. -/
theorem Holds.neg {n : Int} (h : s.Holds n) (h₀ : 0 ≤ n) : s.Holds (-n) := by
  obtain ⟨_, h₂⟩ := h
  simp only [maxValue] at h₂
  simp only [Holds, minValue, maxValue]
  omega

/-- Up to an integer that words hold, both signs are held. -/
theorem Holds.of_abs_le {a n : Int} (ha : s.Holds a) (h₁ : -a ≤ n)
    (h₂ : n ≤ a) : s.Holds n :=
  (ha.neg (by omega)).of_between ha h₁ h₂

end WordSize

namespace Word

variable {s : WordSize} {a b : Word s}

theorem map_toInt_inj {v w : List (Word s)} :
    v.map toInt = w.map toInt ↔ v = w :=
  (List.map_injective_iff.2 fun _ _ => toInt_inj.1).eq_iff

/-! ## Where the exact result fits -/

theorem toInt_neg_of_holds (h : s.Holds (-a.toInt)) :
    (-a).toInt = -a.toInt := by
  rw [toInt_neg, bmod_of_holds h]

theorem toInt_add_of_holds (h : s.Holds (a.toInt + b.toInt)) :
    (a + b).toInt = a.toInt + b.toInt := by
  rw [toInt_add, bmod_of_holds h]

theorem toInt_sub_of_holds (h : s.Holds (a.toInt - b.toInt)) :
    (a - b).toInt = a.toInt - b.toInt := by
  rw [toInt_sub, bmod_of_holds h]

theorem toInt_mul_of_holds (h : s.Holds (a.toInt * b.toInt)) :
    (a * b).toInt = a.toInt * b.toInt := by
  rw [toInt_mul, bmod_of_holds h]

/-- A quotient of natural numbers is not above its dividend, so it fits. -/
theorem toInt_div_of_nat {x y : Nat} (ha : a.toInt = x) (hb : b.toInt = y) :
    (a / b).toInt = (x / y : Nat) := by
  have hx : s.Holds (x : Int) := ha ▸ a.holds_toInt
  have hle : ((x / y : Nat) : Int) ≤ x := by exact_mod_cast Nat.div_le_self x y
  have h₀ : (0 : Int) ≤ (x / y : Nat) := Int.natCast_nonneg _
  rw [toInt_div, ha, hb, ← Int.ofNat_tdiv]
  exact bmod_of_holds (hx.of_abs_le (by omega) hle)

theorem toInt_mod_of_nat {x y : Nat} (ha : a.toInt = x) (hb : b.toInt = y) :
    (a % b).toInt = (x % y : Nat) := by
  rw [toInt_mod, ha, hb, ← Int.ofNat_tmod]

/-! ## Arithmetic that refuses what does not fit -/

/-- The opposite, if a word holds it. -/
def neg? (a : Word s) : Option (Word s) := ofInt? (-a.toInt)

/-- The sum, if a word holds it. -/
def add? (a b : Word s) : Option (Word s) := ofInt? (a.toInt + b.toInt)

/-- The difference, if a word holds it. -/
def sub? (a b : Word s) : Option (Word s) := ofInt? (a.toInt - b.toInt)

/-- The product, if a word holds it. -/
def mul? (a b : Word s) : Option (Word s) := ofInt? (a.toInt * b.toInt)

/-- The quotient, if there is one and a word holds it. -/
def div? (a b : Word s) : Option (Word s) :=
  if b = 0 then none else ofInt? (a.toInt.tdiv b.toInt)

/-- The remainder, if there is a quotient and a word holds that. -/
def mod? (a b : Word s) : Option (Word s) :=
  (div? a b).map fun _ => a % b

/-! Nothing is refused exactly if the machine's own result is exact. -/

theorem neg?_eq_iff : neg? a = some (-a) ↔ (-a).toInt = -a.toInt :=
  ofInt?_eq_some_iff

theorem add?_eq_iff :
    add? a b = some (a + b) ↔ (a + b).toInt = a.toInt + b.toInt :=
  ofInt?_eq_some_iff

theorem sub?_eq_iff :
    sub? a b = some (a - b) ↔ (a - b).toInt = a.toInt - b.toInt :=
  ofInt?_eq_some_iff

theorem mul?_eq_iff :
    mul? a b = some (a * b) ↔ (a * b).toInt = a.toInt * b.toInt :=
  ofInt?_eq_some_iff

theorem div?_of_nat {x y : Nat} (ha : a.toInt = x) (hb : b.toInt = y)
    (hy : 0 < y) : div? a b = some (a / b) := by
  have hne : b ≠ 0 := by
    intro h
    rw [h, toInt_zero] at hb
    omega
  rw [div?, if_neg hne, ofInt?_eq_some_iff, toInt_div_of_nat ha hb, ha, hb,
    Int.ofNat_tdiv]

theorem mod?_of_nat {x y : Nat} (ha : a.toInt = x) (hb : b.toInt = y)
    (hy : 0 < y) : mod? a b = some (a % b) := by
  rw [mod?, div?_of_nat ha hb hy, Option.map_some]

end Word

end KroneckerCode

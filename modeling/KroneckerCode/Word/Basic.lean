import KroneckerCode.Word.Size

/-!
# Words

A `Word s` is a signed machine word of size `s`, and its arithmetic is the
machine's: a sum, difference or product that does not fit is reduced modulo
the number of words and read as a signed value again, and nothing is reported.
Division cuts toward zero and the remainder takes the sign of the dividend.

The meaning of a word is the integer `toInt`, and each operation has one
equation that gives the meaning of its result. The equations speak of
`Int.bmod`, the balanced remainder; where the exact result fits, `toInt_ofInt`
and its relatives drop it. Nothing outside this file has to look at the bits.
-/

namespace KroneckerCode

/-- A signed machine word. -/
@[ext] structure Word (s : WordSize) where
  bits : BitVec s.bits
deriving DecidableEq

namespace Word

variable {s : WordSize}

/-- The integer that a word denotes. -/
def toInt (w : Word s) : Int := w.bits.toInt

/-- The word that denotes `n`, reduced to the width of the word. -/
def ofInt (n : Int) : Word s := ⟨BitVec.ofInt s.bits n⟩

/-- The word that denotes `n`, if there is one. -/
def ofInt? (n : Int) : Option (Word s) :=
  if s.Holds n then some (ofInt n) else none

instance : Add (Word s) := ⟨fun a b => ⟨a.bits + b.bits⟩⟩
instance : Sub (Word s) := ⟨fun a b => ⟨a.bits - b.bits⟩⟩
instance : Mul (Word s) := ⟨fun a b => ⟨a.bits * b.bits⟩⟩
instance : Neg (Word s) := ⟨fun a => ⟨-a.bits⟩⟩
instance : Div (Word s) := ⟨fun a b => ⟨a.bits.sdiv b.bits⟩⟩
instance : Mod (Word s) := ⟨fun a b => ⟨a.bits.srem b.bits⟩⟩

instance : OfNat (Word s) n := ⟨ofInt n⟩
instance : Inhabited (Word s) := ⟨0⟩

instance : LE (Word s) := ⟨fun a b => a.toInt ≤ b.toInt⟩
instance : LT (Word s) := ⟨fun a b => a.toInt < b.toInt⟩
instance (a b : Word s) : Decidable (a ≤ b) := inferInstanceAs (Decidable (a.toInt ≤ b.toInt))
instance (a b : Word s) : Decidable (a < b) := inferInstanceAs (Decidable (a.toInt < b.toInt))

instance : ToString (Word s) := ⟨fun w => toString w.toInt⟩

/-! ## The meaning of each operation -/

theorem le_iff {a b : Word s} : a ≤ b ↔ a.toInt ≤ b.toInt := Iff.rfl

theorem lt_iff {a b : Word s} : a < b ↔ a.toInt < b.toInt := Iff.rfl

theorem toInt_inj {a b : Word s} : a.toInt = b.toInt ↔ a = b := by
  rw [Word.ext_iff]
  exact BitVec.toInt_inj

theorem toInt_add (a b : Word s) : (a + b).toInt = (a.toInt + b.toInt).bmod s.count :=
  BitVec.toInt_add a.bits b.bits

theorem toInt_sub (a b : Word s) : (a - b).toInt = (a.toInt - b.toInt).bmod s.count :=
  BitVec.toInt_sub

theorem toInt_mul (a b : Word s) : (a * b).toInt = (a.toInt * b.toInt).bmod s.count :=
  BitVec.toInt_mul a.bits b.bits

theorem toInt_neg (a : Word s) : (-a).toInt = (-a.toInt).bmod s.count :=
  BitVec.toInt_neg

theorem toInt_div (a b : Word s) : (a / b).toInt = (a.toInt.tdiv b.toInt).bmod s.count :=
  BitVec.toInt_sdiv a.bits b.bits

theorem toInt_mod (a b : Word s) : (a % b).toInt = a.toInt.tmod b.toInt :=
  BitVec.toInt_srem a.bits b.bits

theorem toInt_ofInt_eq_bmod (n : Int) : (ofInt n : Word s).toInt = n.bmod s.count :=
  BitVec.toInt_ofInt n

/-- A word denotes an integer within the limits of its size. -/
theorem holds_toInt (a : Word s) : s.Holds a.toInt := by
  have h₁ := BitVec.le_toInt a.bits
  have h₂ := BitVec.toInt_lt (x := a.bits)
  have hh : ((s.half : Nat) : Int) = 2 ^ (s.bits - 1) := by
    simp [WordSize.half, twoPow]
  simp only [WordSize.Holds, WordSize.minValue, WordSize.maxValue, toInt]
  omega

/-- Within the limits of the size nothing is reduced. -/
theorem bmod_of_holds {n : Int} (h : s.Holds n) : n.bmod s.count = n := by
  have hc := s.count_eq
  obtain ⟨h₁, h₂⟩ := h
  simp only [WordSize.minValue, WordSize.maxValue] at h₁ h₂
  apply Int.bmod_eq_of_le <;> omega

theorem toInt_ofInt {n : Int} (h : s.Holds n) : (ofInt n : Word s).toInt = n := by
  rw [toInt_ofInt_eq_bmod, bmod_of_holds h]

@[simp] theorem ofInt_toInt (a : Word s) : ofInt a.toInt = a :=
  toInt_inj.1 (toInt_ofInt a.holds_toInt)

/-- A word is found exactly for the integers within the limits, and it denotes its integer. -/
theorem ofInt?_eq_some_iff {n : Int} {w : Word s} : ofInt? n = some w ↔ w.toInt = n := by
  simp only [ofInt?]
  split
  next h =>
    constructor
    · intro e
      rw [← Option.some.inj e, toInt_ofInt h]
    · intro e
      rw [← e, ofInt_toInt]
  next h =>
    constructor
    · intro e
      cases e
    · intro e
      exact absurd (e ▸ w.holds_toInt) h

theorem ofInt?_eq_none_iff {n : Int} : (ofInt? n : Option (Word s)) = none ↔ ¬ s.Holds n := by
  simp [ofInt?]

theorem toInt_zero : (0 : Word s).toInt = 0 := by
  apply toInt_ofInt
  cases s <;> decide

theorem toInt_one : (1 : Word s).toInt = 1 := by
  apply toInt_ofInt
  cases s <;> decide

end Word

end KroneckerCode

import KroneckerCode.Word.Basic

/-!
# Machine integer types

There are twelve of them, a signed and an unsigned one for each word size. Here
a type stands for the interval of integers that it holds, and a value of it is
an integer together with the fact that it lies there. This is the view that
conversions take: no arithmetic is done on these values. The signed values of
a size are its words, which do have arithmetic.
-/

namespace KroneckerCode

/-- A machine integer type. -/
inductive IntType where
  | signed (size : WordSize)
  | unsigned (size : WordSize)
deriving DecidableEq, Repr

namespace IntType

/-- The name of the type. -/
def name : IntType → String
  | signed s => s.name
  | unsigned s => "u" ++ s.suffix

/-- The least value. -/
def minValue : IntType → Int
  | signed s => s.minValue
  | unsigned _ => 0

/-- The greatest value. -/
def maxValue : IntType → Int
  | signed s => s.maxValue
  | unsigned s => s.count - 1

/-- Whether the type has the integer as a value. -/
def Holds (t : IntType) (n : Int) : Prop := t.minValue ≤ n ∧ n ≤ t.maxValue

instance (t : IntType) (n : Int) : Decidable (t.Holds n) :=
  inferInstanceAs (Decidable (_ ∧ _))

end IntType

/-- A value of a machine integer type. -/
@[ext] structure Ranged (t : IntType) where
  val : Int
  holds : t.Holds val
deriving DecidableEq

namespace Ranged

/-- The value of the type that is equal to `n`, if there is one. -/
def ofInt? (t : IntType) (n : Int) : Option (Ranged t) :=
  if h : t.Holds n then some ⟨n, h⟩ else none

theorem ofInt?_eq_some_iff {t : IntType} {n : Int} {x : Ranged t} :
    ofInt? t n = some x ↔ x.val = n := by
  simp only [ofInt?]
  split
  next h =>
    simp only [Option.some.injEq, Ranged.ext_iff]
    exact eq_comm
  next h =>
    constructor
    · intro e
      cases e
    · intro e
      exact absurd (e ▸ x.holds) h

/-- The word that denotes the value. -/
def toWord {s : WordSize} (x : Ranged (.signed s)) : Word s := Word.ofInt x.val

end Ranged

namespace Word

/-- The value that a word denotes, as a member of the signed type of its size. -/
def toRanged {s : WordSize} (w : Word s) : Ranged (.signed s) := ⟨w.toInt, w.holds_toInt⟩

@[simp] theorem toWord_toRanged {s : WordSize} (w : Word s) : w.toRanged.toWord = w :=
  w.ofInt_toInt

@[simp] theorem toInt_toWord {s : WordSize} (x : Ranged (.signed s)) : x.toWord.toInt = x.val :=
  toInt_ofInt x.holds

end Word

end KroneckerCode

import KroneckerCode.Binary.Decimal
import KroneckerCode.Integer.Basic

/-!
# Element types

The components of a vector may be handed over, and taken back, in any of the
machine integer types, in a floating-point format, or as integers of any size.
-/

namespace KroneckerCode

/-- A type of numbers that vectors can be made of. -/
inductive ElementType where
  | int (type : IntType)
  | float (format : BinaryFormat)
  | big
deriving DecidableEq, Repr

/-- The name of the type. -/
def ElementType.name : ElementType → String
  | int t => t.name
  | float f => f.name
  | big => "Integer"

/-- A number of the type. -/
def Element : ElementType → Type
  | .int t => Ranged t
  | .float f => Binary f
  | .big => Integer

namespace Element

/-- The text of a number. -/
def text : (e : ElementType) → Element e → String
  | .int _, (x : Ranged _) => toString x.val
  | .float _, (x : Binary _) => Binary.text x
  | .big, (x : Integer) => toString x

instance (e : ElementType) : DecidableEq (Element e) :=
  match e with
  | .int t => inferInstanceAs (DecidableEq (Ranged t))
  | .float f => inferInstanceAs (DecidableEq (Binary f))
  | .big => inferInstanceAs (DecidableEq Integer)

end Element

end KroneckerCode

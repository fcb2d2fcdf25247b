import KroneckerCode.Binary.Round
import KroneckerCode.Element
import KroneckerCode.Error.Basic

/-!
# Exact conversions

A conversion gives the same number in another type, or it is refused. It never
wraps, rounds or drops digits. One side of every conversion is a machine integer
type: `toRanged` converts any number into one, and `ofRanged` converts back into
any type.

An integer becomes a floating-point number by rounding, and the result counts
only if its way back leads to the integer again. That way is open to numbers
whose whole part is in range. A floating-point number becomes an integer only if
nothing stands behind its point.
-/

namespace KroneckerCode.Cast

/-- The refusal of a number, given by its text. -/
def refuse {α : Type} (value : String) (target : ElementType) : Except CastError α :=
  .error { value, target := target.name }

/-- The whole part of a floating-point number, if it is a value of the type. -/
def truncateInto? (t : IntType) {f : BinaryFormat} (x : Binary f) : Option (Ranged t) :=
  x.datum.truncate?.bind (Ranged.ofInt? t)

/-- The value of the type that is equal to the number, if there is one. -/
def toRanged? (t : IntType) : (e : ElementType) → Element e → Option (Ranged t)
  | .int _, (x : Ranged _) => Ranged.ofInt? t x.val
  | .float _, (x : Binary _) => if x.datum.isWhole then truncateInto? t x else none
  | .big, (x : Integer) => Ranged.ofInt? t x.value

/-- The number of the type that is equal to the value, if there is one. -/
def ofRanged? {t : IntType} (x : Ranged t) : (e : ElementType) → Option (Element e)
  | .int u => Ranged.ofInt? u x.val
  | .float f =>
    let y := Binary.ofInt f x.val
    if truncateInto? t y = some x then some y else none
  | .big => some (Integer.ofRanged x)

/-- Converts a number into a machine integer type. -/
def toRanged (t : IntType) (e : ElementType) (x : Element e) : Except CastError (Ranged t) :=
  match toRanged? t e x with
  | some y => .ok y
  | none => refuse (Element.text e x) (.int t)

/-- Converts a value of a machine integer type into another type. -/
def ofRanged {t : IntType} (x : Ranged t) (e : ElementType) : Except CastError (Element e) :=
  match ofRanged? x e with
  | some y => .ok y
  | none => refuse (toString x.val) e

/-- Converts a number into a word. -/
def toWord (s : WordSize) (e : ElementType) (x : Element e) : Except CastError (Word s) :=
  (toRanged (.signed s) e x).map Ranged.toWord

/-- Converts a word into another type. -/
def ofWord {s : WordSize} (w : Word s) (e : ElementType) : Except CastError (Element e) :=
  ofRanged w.toRanged e

end KroneckerCode.Cast

/-!
# Errors and faults

An error is what a caller is expected to handle. There is one type for everything
that can be done wrong with the codec: ask for a dimension that does not exist,
offer a component or a code that is out of range, break off a stream or run past
its end, or search with parameters that lead nowhere. The numbers in an error are
plain integers, so that it does not depend on a word size. A refused conversion
is an error of its own, and the cause of one of these.

A fault is a use of the library that has no answer at all: a division by zero,
or a look-up past the end of a table. It is kept apart from the errors.
-/

namespace KroneckerCode

/-- A use of an operation outside its domain. -/
inductive Fault where
  /-- A division or a remainder by zero. -/
  | zeroDivisor
  /-- A look-up at an index that is not below the length. -/
  | indexPastEnd (length index : Nat)
deriving DecidableEq, Repr

/-- The text of the fault. -/
def Fault.message : Fault → String
  | zeroDivisor => "divisor must not be 0"
  | indexPastEnd length index =>
    s!"index out of bounds: the len is {length} but the index is {index}"

/-- A value that a type cannot represent exactly. -/
structure CastError where
  /-- The text of the value. -/
  value : String
  /-- The name of the type. -/
  target : String
deriving DecidableEq, Repr

/-- The text of the refusal. -/
def CastError.message (e : CastError) : String :=
  s!"cannot convert {e.value} to {e.target} without loss"

/-- Why there is no code, no vector or no table. -/
inductive CodecError where
  /-- No entry of the table has this dimension. -/
  | dimensionTooLarge (size max : Nat) (typeName : String)
  /-- A component lies outside its symmetric bound. -/
  | componentOutOfRange (index : Nat) (value bound : Int)
  /-- A code lies outside the range of its dimension. -/
  | codeOutOfRange (code : Int) (size : Nat) (hMin hMax : Int)
  /-- A code other than zero is to be read as the empty vector. -/
  | invalidZeroSizeCode (code : Int)
  /-- A component cannot be converted between the two types at hand. -/
  | componentCastFailure (index : Nat) (source : CastError)
  /-- A component is offered to an encoder that has them all. -/
  | tooManyPushes (size : Nat)
  /-- A code is asked of an encoder that lacks components. -/
  | notEnoughPushes (pushed size : Nat)
  /-- A component is asked of a decoder that has given them all. -/
  | tooManyPulls (size : Nat)
  /-- The parameters of a search are unusable. -/
  | invalidConfig (text : String)
deriving DecidableEq, Repr

namespace CodecError

/-- The conversion that failed, if that is the cause. -/
def source? : CodecError → Option CastError
  | componentCastFailure _ source => some source
  | _ => none

/-- The text of the error. -/
def message : CodecError → String
  | dimensionTooLarge size max typeName =>
    s!"cannot Kronecker-code a sequence of size {size} with the signed integral type " ++
      s!"'{typeName}': the maximum allowed size for this type is {max}"
  | componentOutOfRange index value bound =>
    s!"element {index} of a sequence to be Kronecker-encoded is out of bounds: " ++
      s!"the value is {value}, while the bounds are [-{bound}, {bound}]"
  | codeOutOfRange code size hMin hMax =>
    s!"cannot Kronecker-decode {code} into a sequence of size {size}: " ++
      s!"the value is outside the allowed bounds [{hMin}, {hMax}]"
  | invalidZeroSizeCode code =>
    "only zero can be Kronecker-decoded into an empty sequence, " ++
      s!"but {code} was provided instead"
  | componentCastFailure index _ => s!"element {index} could not be converted"
  | tooManyPushes size =>
    "cannot push any more values to this Kronecker encoder: the number of values already " ++
      s!"pushed is equal to the size used for construction ({size})"
  | notEnoughPushes pushed size =>
    s!"cannot fetch the code from this Kronecker encoder: the number of values pushed ({pushed}) " ++
      s!"is less than the size used for construction ({size})"
  | tooManyPulls size =>
    "cannot decode any more values from this Kronecker decoder: the number of values already " ++
      s!"decoded is equal to the size used for construction ({size})"
  | invalidConfig text => s!"invalid limit search configuration: {text}"

end CodecError

end KroneckerCode

import KroneckerCode.Error.Basic
import KroneckerCode.Text.Quoted

/-!
# Errors as a programmer reads them

Beside its message an error has a second text, which names the cause and every
number in it: `TooManyPulls` with its fields in braces, and so on. Texts inside
an error are quoted.
-/

namespace KroneckerCode

open Text.Quoted (quote)

/-- A name and, in braces behind it, named fields. -/
def debugRecord (name : String) (fields : List (String × String)) : String :=
  let inside := ", ".intercalate (fields.map fun (field, text) => s!"{field}: {text}")
  s!"{name} \x7b {inside} \x7d"

/-- The text that shows all of the error. -/
def CastError.debugText (e : CastError) : String :=
  debugRecord "CastError" [("value", quote e.value), ("target", quote e.target)]

/-- The text that shows all of the error. -/
def CodecError.debugText : CodecError → String
  | dimensionTooLarge size max typeName =>
    debugRecord "DimensionTooLarge"
      [("size", toString size), ("max", toString max), ("type_name", quote typeName)]
  | componentOutOfRange index value bound =>
    debugRecord "ComponentOutOfRange"
      [("index", toString index), ("value", toString value), ("bound", toString bound)]
  | codeOutOfRange code size hMin hMax =>
    debugRecord "CodeOutOfRange"
      [("code", toString code), ("size", toString size), ("h_min", toString hMin),
        ("h_max", toString hMax)]
  | invalidZeroSizeCode code => debugRecord "InvalidZeroSizeCode" [("code", toString code)]
  | componentCastFailure index source =>
    debugRecord "ComponentCastFailure"
      [("index", toString index), ("source", source.debugText)]
  | tooManyPushes size => debugRecord "TooManyPushes" [("size", toString size)]
  | notEnoughPushes pushed size =>
    debugRecord "NotEnoughPushes" [("pushed", toString pushed), ("size", toString size)]
  | tooManyPulls size => debugRecord "TooManyPulls" [("size", toString size)]
  | invalidConfig text => s!"InvalidConfig({quote text})"

end KroneckerCode

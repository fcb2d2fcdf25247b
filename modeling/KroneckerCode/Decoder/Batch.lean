import KroneckerCode.Cast.Basic
import KroneckerCode.Decoder.Basic

/-!
# Decoding whole vectors

A code is split into all its components at once, as words or as numbers of an
element type. In the latter case the first component that the type cannot
represent is an error, and there is no vector.

A vector can also be written over a list of slots, whose number is the
dimension. Either every slot is written or none.
-/

namespace KroneckerCode

variable {s : WordSize}

/-- The vector of a code, as words. -/
def decode (code : Word s) (size : Nat) : Except CodecError (List (Word s)) :=
  (Decoder.ofCode code size).map fun dec => dec.takeAll.1

namespace Decoder

/-- Converts the components of a list, the first of which has position `index`. -/
def castList (e : ElementType) (index : Nat) :
    List (Word s) → Except CodecError (List (Element e))
  | [] => .ok []
  | w :: ws => do
    let x ← (Cast.ofWord w e).mapError (.componentCastFailure index)
    let xs ← castList e (index + 1) ws
    return x :: xs

/-- Puts the values into the slots, from the first slot on. -/
def overwrite {α : Type} : (slots values : List α) → List α
  | _ :: slots, v :: values => v :: overwrite slots values
  | slots, _ => slots

end Decoder

/-- The vector of a code, as numbers of an element type. -/
def decodeAs (e : ElementType) (code : Word s) (size : Nat) :
    Except CodecError (List (Element e)) := do
  let components ← decode code size
  Decoder.castList e 0 components

/-- Writes the vector of a code over the slots. The answer has the slots afterwards. -/
def decodeInto (e : ElementType) (code : Word s) (slots : List (Element e)) :
    Except CodecError Unit × List (Element e) :=
  match decodeAs e code slots.length with
  | .ok values => (.ok (), Decoder.overwrite slots values)
  | .error err => (.error err, slots)

end KroneckerCode

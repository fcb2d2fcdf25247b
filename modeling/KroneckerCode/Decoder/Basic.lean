import KroneckerCode.Limits.Standard

/-!
# The decoder

A decoder is made for a code and a number of components, and gives them one at a
time, in the order in which they were encoded. It keeps the code shifted by the
least code, so that it is at least zero. A component is the digit of its place,
which is what is left of the shifted code below the next place, counted in units
of this place; the shift of the digit is taken back by subtracting its bound.

The code itself is not consumed. Only the place moves on, and when every
component has been given the decoder stays as it is.
-/

namespace KroneckerCode

/-- A decoder in the middle of its work. -/
structure Decoder (s : WordSize) where
  entry : Limits.Entry s
  /-- The number of components given. -/
  index : Nat
  /-- The shifted code, from zero to the width of the range of codes. -/
  code : Word s
  /-- The worth of the next place. -/
  place : Word s
deriving DecidableEq

namespace Decoder

variable {s : WordSize}

/-- A decoder that has given nothing, for a code of the entry. -/
def start (entry : Limits.Entry s) (code : Word s) : Decoder s where
  entry := entry
  index := 0
  code := code - entry.hMin
  place := 1

/-- Refuses a word that is no code of the dimension. -/
def checkCode (entry : Limits.Entry s) (size : Nat) (code : Word s) : Except CodecError Unit :=
  if size = 0 then
    if code = 0 then .ok () else .error (.invalidZeroSizeCode code.toInt)
  else if entry.Contains code then
    .ok ()
  else
    .error (.codeOutOfRange code.toInt size entry.hMin.toInt entry.hMax.toInt)

/-- A decoder that splits a code into so many components, with the standard limits. -/
def ofCode (code : Word s) (size : Nat) : Except CodecError (Decoder s) := do
  let entry ← (Limits.standard s).entry size
  checkCode entry size code
  return start entry code

/-- The number of components of the vector. -/
def size (dec : Decoder s) : Nat := dec.entry.dimension

/-- The number of components that are left. -/
def remaining (dec : Decoder s) : Nat := dec.size - dec.index

/-- Gives the next component. -/
def pull (dec : Decoder s) : Except CodecError (Word s × Decoder s) :=
  match dec.entry.bounds[dec.index]? with
  | none => .error (.tooManyPulls dec.size)
  | some bound =>
    let next := dec.place * (bound + bound + 1)
    -- the remainder cuts off the places above this one, the division those below
    let component := dec.code % next / dec.place - bound
    .ok (component, { dec with index := dec.index + 1, place := next })

/-- The next component, if one is left, and the decoder behind it. -/
def next? (dec : Decoder s) : Option (Word s × Decoder s) :=
  dec.pull.toOption

/-- Leaves out `n` components and gives the next. If there are not so many, all are left out. -/
def nth : (n : Nat) → Decoder s → Option (Word s) × Decoder s
  | 0, dec =>
    match dec.next? with
    | some (component, dec) => (some component, dec)
    | none => (none, dec)
  | n + 1, dec =>
    match dec.next? with
    | some (_, dec) => nth n dec
    | none => (none, dec)

/-- Gives the next `n` components, or as many as are left. -/
def take : (n : Nat) → Decoder s → List (Word s) × Decoder s
  | 0, dec => ([], dec)
  | n + 1, dec =>
    match dec.next? with
    | some (component, dec) =>
      let (rest, dec) := take n dec
      (component :: rest, dec)
    | none => ([], dec)

/-- Gives all components that are left. -/
def takeAll (dec : Decoder s) : List (Word s) × Decoder s :=
  dec.take dec.remaining

end Decoder

end KroneckerCode

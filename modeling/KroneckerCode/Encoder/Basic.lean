import KroneckerCode.Limits.Standard

/-!
# The encoder

An encoder is made for a number of components and takes them one at a time. It
works on shifted digits: a component between `-b` and `b` counts as a digit from
zero to `2 b`, so that everything it adds up is at least zero and at most the
width of the range of codes. The shift is taken back at the end, all at once, by
adding the least code.

A component that is refused leaves no trace: the encoder goes on from where it
was, and the caller may offer another one.
-/

namespace KroneckerCode

/-- An encoder in the middle of its work. -/
structure Encoder (s : WordSize) where
  entry : Limits.Entry s
  /-- The number of components taken. -/
  index : Nat
  /-- The sum of the shifted digits, each times the worth of its place. -/
  value : Word s
  /-- The worth of the next place. -/
  place : Word s
deriving DecidableEq

namespace Encoder

variable {s : WordSize}

/-- An encoder that has taken nothing. -/
def start (entry : Limits.Entry s) : Encoder s where
  entry := entry
  index := 0
  value := 0
  place := 1

/-- An encoder for so many components, with the standard limits. -/
def ofSize (s : WordSize) (size : Nat) : Except CodecError (Encoder s) :=
  ((Limits.standard s).entry size).map start

/-- The number of components that are wanted. -/
def size (enc : Encoder s) : Nat := enc.entry.dimension

/-- The number of components that have been taken. -/
def pushed (enc : Encoder s) : Nat := enc.index

/-- The encoder after a component within the bound of its position. -/
def accept (enc : Encoder s) (bound n : Word s) : Encoder s :=
  -- `n + bound` is the shifted digit
  { enc with
    index := enc.index + 1
    value := enc.value + (n + bound) * enc.place
    place := enc.place * (bound + bound + 1) }

/-- Takes the next component. -/
def push (enc : Encoder s) (n : Word s) : Except CodecError (Encoder s) :=
  match enc.entry.bounds[enc.index]? with
  | none => .error (.tooManyPushes enc.size)
  | some bound =>
    if n < -bound ∨ bound < n then
      .error (.componentOutOfRange enc.index n.toInt bound.toInt)
    else
      .ok (enc.accept bound n)

/-- The code, once all components are there. -/
def get (enc : Encoder s) : Except CodecError (Word s) :=
  if enc.index < enc.size then
    .error (.notEnoughPushes enc.index enc.size)
  else
    .ok (enc.value + enc.entry.hMin)

end Encoder

end KroneckerCode

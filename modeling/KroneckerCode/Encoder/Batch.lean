import KroneckerCode.Cast.Basic
import KroneckerCode.Encoder.Basic

/-!
# Encoding whole vectors

The components of a vector may be of any element type. Each is converted into a
word and offered to an encoder before the next one is looked at, so the first
component that is wrong in either way decides the error.

A vector may also come from a source that need not end, with the number of
components given apart. No more components are taken than that, and the count
of those that were taken is part of the answer.
-/

namespace KroneckerCode

/-- Items that are given one after the other: item `i`, unless they have ended before it. -/
abbrev Items (α : Type) := Nat → Option α

namespace Items

variable {α : Type}

/-- The items of a list, which end with it. -/
def ofList (xs : List α) : Items α := fun i => xs[i]?

/-- The items of a list, over and over. -/
def cycle (xs : List α) : Items α := fun i => xs[i % xs.length]?

end Items

namespace Encoder

variable {s : WordSize}

/-- Converts component `index` into a word. -/
def castComponent (s : WordSize) (e : ElementType) (index : Nat) (x : Element e) :
    Except CodecError (Word s) :=
  (Cast.toWord s e x).mapError (.componentCastFailure index)

/-- Takes the components of a list, the first of which has position `index`. -/
def pushList (e : ElementType) (enc : Encoder s) (index : Nat) :
    List (Element e) → Except CodecError (Encoder s)
  | [] => .ok enc
  | x :: xs => do
    let n ← castComponent s e index x
    let enc ← enc.push n
    pushList e enc (index + 1) xs

/--
Takes at most `left` items from position `index` on. The answer has the number of
items that were taken in all, one that was refused included.
-/
def pushItems (e : ElementType) (items : Items (Element e)) (enc : Encoder s) (index : Nat) :
    (left : Nat) → Except CodecError (Encoder s) × Nat
  | 0 => (.ok enc, index)
  | left + 1 =>
    match items index with
    | none => (.ok enc, index)
    | some x =>
      match castComponent s e index x with
      -- an item that is refused has been taken all the same
      | .error err => (.error err, index + 1)
      | .ok n =>
        match enc.push n with
        | .error err => (.error err, index + 1)
        | .ok enc => pushItems e items enc (index + 1) left

end Encoder

/-- The code of a vector. -/
def encode (s : WordSize) (e : ElementType) (xs : List (Element e)) :
    Except CodecError (Word s) := do
  let enc ← Encoder.ofSize s xs.length
  let enc ← enc.pushList e 0 xs
  enc.get

/-- The code of the first `size` items, and how many items were taken. -/
def encodeExact (s : WordSize) (e : ElementType) (items : Items (Element e)) (size : Nat) :
    Except CodecError (Word s) × Nat :=
  match Encoder.ofSize s size with
  | .error err => (.error err, 0)
  | .ok enc =>
    let (result, taken) := enc.pushItems e items 0 size
    (result.bind Encoder.get, taken)

end KroneckerCode

import KroneckerCode.Decoder.Basic

/-!
# Sessions with a decoder

A session is a sequence of calls on one decoder. A decoder can be asked for its
components with an error behind the last, or as an iterator, which only ends.
-/

namespace KroneckerCode.Decoder

variable {s : WordSize}

/-- What a decoder can be asked. -/
inductive Call where
  | pull
  | next
  /-- Leaves out components and asks for the next, if there is one. -/
  | nth (n : Nat)
  | take (n : Nat)
  | collect
  /-- Asks a copy for all components that are left. -/
  | fork
  | size
  | length
  | sizeHint
deriving DecidableEq, Repr

/-- What a decoder can say. -/
inductive Answer (s : WordSize) where
  | pulled (component : Word s)
  | refused (error : CodecError)
  | next (component : Option (Word s))
  | components (components : List (Word s))
  | count (n : Nat)
  | hint (least : Nat) (greatest : Option Nat)
deriving DecidableEq

/-- The answer to a call, and the decoder after it. -/
def call (dec : Decoder s) : Call → Answer s × Decoder s
  | .pull =>
    match dec.pull with
    | .ok (component, dec) => (.pulled component, dec)
    | .error err => (.refused err, dec)
  | .next =>
    match dec.next? with
    | some (component, dec) => (.next (some component), dec)
    | none => (.next none, dec)
  | .nth n =>
    let (component, dec) := dec.nth n
    (.next component, dec)
  | .take n =>
    let (components, dec) := dec.take n
    (.components components, dec)
  | .collect =>
    let (components, dec) := dec.takeAll
    (.components components, dec)
  | .fork => (.components dec.takeAll.1, dec)
  | .size => (.count dec.size, dec)
  | .length => (.count dec.remaining, dec)
  | .sizeHint => (.hint dec.remaining (some dec.remaining), dec)

/-- The answers of a session, each with the decoder after its call. -/
def session (dec : Decoder s) : List Call → List (Answer s × Decoder s)
  | [] => []
  | c :: cs =>
    let (answer, dec) := dec.call c
    (answer, dec) :: session dec cs

end KroneckerCode.Decoder

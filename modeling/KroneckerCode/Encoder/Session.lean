import KroneckerCode.Encoder.Basic

/-!
# Sessions with an encoder

A session is a sequence of calls on one encoder. Each call gives one answer, and
calls that are refused are part of the session like the others.
-/

namespace KroneckerCode.Encoder

variable {s : WordSize}

/-- What an encoder can be asked. -/
inductive Call (s : WordSize) where
  | push (n : Word s)
  /-- Offers components until one is refused. -/
  | chain (ns : List (Word s))
  | get
  | size
  /-- Offers a component to a copy and asks the copy for the code. -/
  | fork (n : Word s)
deriving DecidableEq

/-- What an encoder can say. -/
inductive Answer (s : WordSize) where
  | accepted
  | refused (error : CodecError)
  | code (code : Word s)
  | size (size : Nat)
  /-- What the copy says, and the number of components that the copy has taken. -/
  | forked (result : Except CodecError (Word s)) (pushed : Nat)

/-- Offers components until one is refused, and keeps those before it. -/
def pushWhile (enc : Encoder s) : List (Word s) → Except CodecError Unit × Encoder s
  | [] => (.ok (), enc)
  | n :: ns =>
    match enc.push n with
    | .ok enc => pushWhile enc ns
    | .error err => (.error err, enc)

/-- The answer to a call, and the encoder after it. -/
def call (enc : Encoder s) : Call s → Answer s × Encoder s
  | .push n =>
    match enc.push n with
    | .ok enc => (.accepted, enc)
    | .error err => (.refused err, enc)
  | .chain ns =>
    match enc.pushWhile ns with
    | (.ok (), enc) => (.accepted, enc)
    | (.error err, enc) => (.refused err, enc)
  | .get =>
    match enc.get with
    | .ok code => (.code code, enc)
    | .error err => (.refused err, enc)
  | .size => (.size enc.size, enc)
  | .fork n =>
    match enc.push n with
    | .ok copy => (.forked copy.get copy.pushed, enc)
    | .error err => (.forked (.error err) enc.pushed, enc)

/-- The answers of a session, each with the encoder after its call. -/
def session (enc : Encoder s) : List (Call s) → List (Answer s × Encoder s)
  | [] => []
  | c :: cs =>
    let (answer, enc) := enc.call c
    (answer, enc) :: session enc cs

end KroneckerCode.Encoder

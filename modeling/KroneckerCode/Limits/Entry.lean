import KroneckerCode.Word.Basic

/-!
# Limits of one dimension

An entry says what the vectors of one dimension may be, and what their codes
are: component `i` lies between `-bounds[i]` and `bounds[i]`, and the codes are
exactly the words from `hMin` to `hMax`. The width `delta` of that range is kept
with it. All of it fits in words, and so does `delta + 1`, the number of codes.
-/

namespace KroneckerCode.Limits

/-- The bounds of the components and the range of the codes. -/
structure Entry (s : WordSize) where
  bounds : List (Word s)
  hMin : Word s
  hMax : Word s
  delta : Word s
deriving DecidableEq

namespace Entry

variable {s : WordSize}

/-- The number of components. -/
def dimension (e : Entry s) : Nat := e.bounds.length

/-- The entry of dimension zero: there is one vector, and its code is zero. -/
def empty : Entry s where
  bounds := []
  hMin := 0
  hMax := 0
  delta := 0

/-- The entry with the given bounds and greatest code, if everything in it fits. -/
def ofBounds? (bounds : List Nat) (hMax : Nat) : Option (Entry s) := do
  let hMin : Int := -hMax
  let delta : Int := hMax - hMin
  -- the number of codes is not part of the entry, but it has to fit as well
  let _ ← (Word.ofInt? (delta + 1) : Option (Word s))
  return {
    bounds := ← bounds.mapM fun (b : Nat) => Word.ofInt? b
    hMin := ← Word.ofInt? hMin
    hMax := ← Word.ofInt? hMax
    delta := ← Word.ofInt? delta }

/-- Whether the word is a code of this dimension. -/
def Contains (e : Entry s) (code : Word s) : Prop := e.hMin ≤ code ∧ code ≤ e.hMax

instance (e : Entry s) (code : Word s) : Decidable (e.Contains code) :=
  inferInstanceAs (Decidable (_ ∧ _))

instance : ToString (Entry s) where
  toString e :=
    let bounds := ", ".intercalate (e.bounds.map toString)
    s!"[{bounds}] {e.hMin}, {e.hMax}, {e.delta}"

end Entry

end KroneckerCode.Limits

import KroneckerCode.Limits.Build

/-!
# The standard tables

Codes mean something only together with a table, so encoders and decoders all
use the same one for a word size: the one that the default parameters give. It
is worked out when it is first asked for, and kept.
-/

namespace KroneckerCode.Limits

/-- The table that the default parameters give. -/
@[irreducible] def defaultTable (s : WordSize) : Table s :=
  let config : Config := {}
  (searchAll (Draws.uniform config.percent) config.growth s).1

/-! One table is kept for each size. -/

/-- The table for 8 bits, made when it is first asked for. -/
def kept8 : Thunk (Table .w8) := Thunk.mk fun _ => defaultTable .w8

/-- The table for 16 bits, made when it is first asked for. -/
def kept16 : Thunk (Table .w16) := Thunk.mk fun _ => defaultTable .w16

/-- The table for 32 bits, made when it is first asked for. -/
def kept32 : Thunk (Table .w32) := Thunk.mk fun _ => defaultTable .w32

/-- The table for 64 bits, made when it is first asked for. -/
def kept64 : Thunk (Table .w64) := Thunk.mk fun _ => defaultTable .w64

/-- The table for 128 bits, made when it is first asked for. -/
def kept128 : Thunk (Table .w128) := Thunk.mk fun _ => defaultTable .w128

/-- The table for words of the width of an address, made when it is first asked for. -/
def keptPointer : Thunk (Table .pointer) := Thunk.mk fun _ => defaultTable .pointer

/-- The standard table of a word size. -/
def standard : (s : WordSize) → Table s
  | .w8 => kept8.get
  | .w16 => kept16.get
  | .w32 => kept32.get
  | .w64 => kept64.get
  | .w128 => kept128.get
  | .pointer => keptPointer.get

/-- What a thunk gives is what it was made from. -/
theorem get_thunk {α : Type} (make : Unit → α) : (Thunk.mk make).get = make () := rfl

/-- Keeping a table does not change it. -/
theorem standard_eq (s : WordSize) : standard s = defaultTable s := by
  cases s with
  | w8 => rw [standard, kept8, get_thunk]
  | w16 => rw [standard, kept16, get_thunk]
  | w32 => rw [standard, kept32, get_thunk]
  | w64 => rw [standard, kept64, get_thunk]
  | w128 => rw [standard, kept128, get_thunk]
  | pointer => rw [standard, keptPointer, get_thunk]

end KroneckerCode.Limits

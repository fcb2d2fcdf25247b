import KroneckerCode.Error.Basic
import KroneckerCode.Limits.Entry

/-!
# Tables of limits

A table has an entry for every dimension from zero up to the greatest one that
words of its size can code. Entry `m` is the entry of dimension `m`.
-/

namespace KroneckerCode.Limits

/-- The limits of every dimension. -/
structure Table (s : WordSize) where
  entries : List (Entry s)
deriving DecidableEq

namespace Table

variable {s : WordSize}

/-- The number of entries, that of dimension zero included. -/
def size (t : Table s) : Nat := t.entries.length

/-- Whether the table has no entry at all. -/
def isEmpty (t : Table s) : Bool := t.entries.isEmpty

/-- The greatest dimension with an entry. -/
def maxDimension (t : Table s) : Nat := t.size - 1

/-- The entry of a dimension, if there is one. -/
def get? (t : Table s) (m : Nat) : Option (Entry s) := t.entries[m]?

/-- The entry of a dimension, for a caller to whom it is an error if there is none. -/
def entry (t : Table s) (m : Nat) : Except CodecError (Entry s) :=
  match t.get? m with
  | some e => .ok e
  | none => .error (.dimensionTooLarge m t.maxDimension s.name)

/-- The entry at an index, for a caller who knows that there is one. -/
def entryAt (t : Table s) (m : Nat) : Except Fault (Entry s) :=
  match t.get? m with
  | some e => .ok e
  | none => .error (.indexPastEnd t.size m)

/-- The entries of the dimensions from `first` on and before `stop`. -/
def slice (t : Table s) (first stop : Nat) : List (Entry s) :=
  (t.entries.take stop).drop first

theorem entry_eq_ok_iff {t : Table s} {m : Nat} {e : Entry s} :
    t.entry m = .ok e ↔ t.get? m = some e := by
  unfold entry
  split
  next h => simp [h]
  next h => simp [h]

end Table

end KroneckerCode.Limits

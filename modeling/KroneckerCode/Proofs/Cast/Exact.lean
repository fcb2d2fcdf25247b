import KroneckerCode.Cast.Basic
import KroneckerCode.Integer.Lemmas
import KroneckerCode.Proofs.Binary.Round

/-!
# Conversions keep the number

What an element denotes is its `number?`, whatever its type, and that is the
only thing a conversion looks at. Into a machine type there is a way exactly for
the numbers that the type has (`toRanged?_eq_some_iff`). Out of a machine type
there is a way exactly if the other type has an element for the number, and what
comes out is `fresh`: an element that no calculation has touched, without a sign
on zero, and in the smallest storage (`ofRanged?_of_number?`). Both facts compare
with the same number, so the two ways are inverse to each other up to that form.
-/

namespace KroneckerCode

namespace Element

/-- The number that an element denotes, if it denotes one. -/
def number? : (e : ElementType) → Element e → Option ℚ
  | .int _, (x : Ranged _) => some (x.val : ℚ)
  | .float _, (x : Binary _) => x.datum.number?
  | .big, (x : Integer) => some (x.value : ℚ)

/-- The same number, as a conversion gives it. -/
def fresh : (e : ElementType) → Element e → Element e
  | .int _, x => x
  | .float _, (x : Binary _) => x.dropZeroSign
  | .big, (x : Integer) => Integer.ofInt x.value

theorem number?_fresh (e : ElementType) (x : Element e) :
    number? e (fresh e x) = number? e x := by
  cases e with
  | int t => rfl
  | float f => exact Binary.number?_dropZeroSign x
  | big => exact congrArg some (congrArg Int.cast (Integer.value_ofInt _))

theorem fresh_fresh (e : ElementType) (x : Element e) :
    fresh e (fresh e x) = fresh e x := by
  cases e with
  | int t => rfl
  | float f => exact Binary.dropZeroSign_dropZeroSign x
  | big => exact congrArg Integer.ofInt (Integer.value_ofInt _)

end Element

namespace Cast

open Element

variable {s : WordSize} {t : IntType} {e : ElementType} {x : Element e}
  {y : Ranged t} {w : Word s}

theorem ofInt?_eq_some_iff_number {n : Int} :
    Ranged.ofInt? t n = some y ↔ some (n : ℚ) = some (y.val : ℚ) := by
  rw [Ranged.ofInt?_eq_some_iff, Option.some.injEq, Int.cast_inj, eq_comm]

theorem truncateInto?_eq_some_iff {f : BinaryFormat} {x : Binary f} :
    truncateInto? t x = some y ↔ x.datum.truncate? = some y.val := by
  rw [truncateInto?, Option.bind_eq_some_iff]
  simp only [Ranged.ofInt?_eq_some_iff, exists_eq_right']

theorem wholeInto?_eq_some_iff {f : BinaryFormat} {x : Binary f} :
    (if x.datum.isWhole then truncateInto? t x else none) = some y ↔
      x.datum.number? = some (y.val : ℚ) := by
  rw [Datum.number?_eq_intCast_iff, ← truncateInto?_eq_some_iff]
  split
  · next h => exact (and_iff_right h).symm
  · next h => exact iff_of_false (fun hnone => by cases hnone) fun hx => h hx.1

/-- The numbers that a machine type has are converted into it, and no others. -/
theorem toRanged?_eq_some_iff :
    toRanged? t e x = some y ↔ number? e x = some (y.val : ℚ) := by
  cases e with
  | int u => exact ofInt?_eq_some_iff_number
  | big => exact ofInt?_eq_some_iff_number
  | float f => exact wholeInto?_eq_some_iff

/-- A conversion out of a machine type gives the same number. -/
theorem number?_of_ofRanged? (h : ofRanged? y e = some x) :
    number? e x = some (y.val : ℚ) := by
  cases e with
  | int u =>
      have hnumber := ofInt?_eq_some_iff_number.1 h
      exact hnumber.symm
  | float f =>
      rw [ofRanged?] at h
      split at h
      · next hback =>
          obtain rfl := Option.some.inj h
          rw [truncateInto?_eq_some_iff] at hback
          exact Binary.number?_ofInt_of_truncate? hback
      · cases h
  | big =>
      obtain rfl := Option.some.inj h
      exact congrArg some (congrArg Int.cast (Integer.value_ofInt _))

/-- If the other type has an element for the number, it is converted, into the
element that is fresh. -/
theorem ofRanged?_of_number? (h : number? e x = some (y.val : ℚ)) :
    ofRanged? y e = some (fresh e x) := by
  cases e with
  | int u =>
      exact ofInt?_eq_some_iff_number.2 h.symm
  | float f =>
      have hround := Binary.number?_ofInt_of_representable h
      have hback := (Datum.number?_eq_intCast_iff.1 hround).2
      have hword : fresh (.float f) x = Binary.ofInt f y.val :=
        (Binary.dropZeroSign_eq_of_number?_eq h hround).trans
          (Binary.dropZeroSign_ofInt hround)
      rw [ofRanged?, if_pos (truncateInto?_eq_some_iff.2 hback), hword]
  | big =>
      have hvalue : (x : Integer).value = y.val := by
        exact_mod_cast Option.some.inj h
      show some (Integer.ofInt y.val) = some (Integer.ofInt (x : Integer).value)
      rw [hvalue]

/-! ## Conversions that are answered

A conversion that is answered gives the element with the same number that no
calculation has touched. Of a machine type that is the only one. -/

theorem toRanged_eq_ok_iff :
    toRanged t e x = .ok y ↔ number? e x = some (y.val : ℚ) := by
  rw [← toRanged?_eq_some_iff, toRanged]
  cases toRanged? t e x with
  | none => exact iff_of_false (fun h => by cases h) fun h => by cases h
  | some z => rw [Except.ok.injEq, Option.some.injEq]

theorem ofRanged_eq_ok_iff :
    ofRanged y e = .ok x ↔ number? e x = some (y.val : ℚ) ∧ fresh e x = x := by
  have hok : ofRanged y e = .ok x ↔ ofRanged? y e = some x := by
    rw [ofRanged]
    cases ofRanged? y e with
    | none => exact iff_of_false (fun h => by cases h) fun h => by cases h
    | some z => rw [Except.ok.injEq, Option.some.injEq]
  rw [hok]
  constructor
  · intro h
    have hfresh := ofRanged?_of_number? (number?_of_ofRanged? h)
    rw [h, Option.some.injEq] at hfresh
    exact ⟨number?_of_ofRanged? h, hfresh.symm⟩
  · rintro ⟨h, hfresh⟩
    rw [ofRanged?_of_number? h, hfresh]

/-! ## Words -/

theorem toWord_eq_ok_iff :
    toWord s e x = .ok w ↔ number? e x = some (w.toInt : ℚ) := by
  have hiff : toRanged (.signed s) e x = .ok w.toRanged ↔
      number? e x = some (w.toInt : ℚ) := toRanged_eq_ok_iff
  rw [← hiff, toWord]
  cases toRanged (.signed s) e x with
  | error err => exact iff_of_false (fun h => by cases h) fun h => by cases h
  | ok z =>
      rw [Except.map, Except.ok.injEq, Except.ok.injEq, ← Word.toInt_inj,
        Word.toInt_toWord, Ranged.ext_iff]
      rfl

theorem ofWord_eq_ok_iff :
    ofWord w e = .ok x ↔ number? e x = some (w.toInt : ℚ) ∧ fresh e x = x :=
  ofRanged_eq_ok_iff

end Cast

end KroneckerCode

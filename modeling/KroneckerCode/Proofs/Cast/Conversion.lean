import KroneckerCode.Proofs.Binary.Nearest
import KroneckerCode.Proofs.Cast.Exact

/-!
# Conversions between two types of numbers

A conversion has a machine integer type on one side and any type on the other.
The two directions are different programs, one that may round and one that never
does. What is known of them is the same statement, `convert_eq_ok_iff`: the
answer is the fresh element of the target type with the number of the source.
From here on there is nothing to know about the types, or about rounding. An
answer exists if the target type has an element for the number, and the way back
is the same statement read the other way.

What the programs are made of says something else: an integer is rounded to the
nearest floating-point number, and a floating-point number is cut off at the
point. Both are parts of `conversions_exact`, where they stand beside what comes
of them.
-/

namespace KroneckerCode

open Element

/-- The type has an element for the number. -/
def ElementType.Represents (e : ElementType) (q : ℚ) : Prop :=
  ∃ x : Element e, number? e x = some q

/-- Where a number is represented, a fresh element represents it. -/
theorem ElementType.Represents.exists_fresh {e : ElementType} {q : ℚ}
    (h : e.Represents q) :
    ∃ x : Element e, number? e x = some q ∧ fresh e x = x := by
  obtain ⟨x, hx⟩ := h
  exact ⟨fresh e x, (number?_fresh e x).trans hx, fresh_fresh e x⟩

namespace Cast

variable {t : IntType} {e : ElementType} {err : CastError}

theorem eq_of_toRanged_eq_error {x : Element e}
    (h : toRanged t e x = .error err) : err = ⟨Element.text e x, t.name⟩ := by
  rw [toRanged] at h
  split at h
  · cases h
  · exact (Except.error.inj h).symm

theorem eq_of_ofRanged_eq_error {y : Ranged t}
    (h : ofRanged y e = .error err) : err = ⟨toString y.val, e.name⟩ := by
  rw [ofRanged] at h
  split at h
  · cases h
  · exact (Except.error.inj h).symm

/-- The pairs of a source and a target type with a conversion. -/
inductive Pair : ElementType → ElementType → Type where
  /-- From any type into a machine integer type. -/
  | into (e : ElementType) (t : IntType) : Pair e (.int t)
  /-- From a machine integer type into any type. -/
  | out (t : IntType) (e : ElementType) : Pair (.int t) e

namespace Pair

variable {a b : ElementType}

/-- The pair of the conversion back. -/
def back : Pair a b → Pair b a
  | into e t => out t e
  | out t e => into e t

/-- The conversion of the pair. -/
def convert : Pair a b → Element a → Except CastError (Element b)
  | into e t, x => toRanged t e x
  | out _ e, (x : Ranged _) => ofRanged x e

variable {x : Element a} {y : Element b}

/-- What is answered is the fresh element with the same number. -/
theorem convert_eq_ok_iff (p : Pair a b) :
    p.convert x = .ok y ↔
      ∃ q, number? a x = some q ∧ number? b y = some q ∧ fresh b y = y := by
  cases p with
  | into e t =>
      have hiff : toRanged t a x = .ok y ↔ number? a x = number? (.int t) y :=
        toRanged_eq_ok_iff
      refine hiff.trans ⟨fun h => ⟨_, h, rfl, rfl⟩, ?_⟩
      rintro ⟨q, hx, hy, _⟩
      exact hx.trans hy.symm
  | out t e =>
      have hiff : ofRanged x b = .ok y ↔
          number? b y = number? (.int t) x ∧ fresh b y = y :=
        ofRanged_eq_ok_iff
      refine hiff.trans ⟨fun h => ⟨_, rfl, h⟩, ?_⟩
      rintro ⟨q, hx, hy, hfresh⟩
      exact ⟨hy.trans hx.symm, hfresh⟩

theorem exists_convert_iff (p : Pair a b) :
    (∃ y, p.convert x = .ok y) ↔
      ∃ q, number? a x = some q ∧ b.Represents q := by
  constructor
  · rintro ⟨y, h⟩
    obtain ⟨q, hx, hy, _⟩ := p.convert_eq_ok_iff.1 h
    exact ⟨q, hx, y, hy⟩
  · rintro ⟨q, hx, hq⟩
    obtain ⟨y, hy, hfresh⟩ := hq.exists_fresh
    exact ⟨y, p.convert_eq_ok_iff.2 ⟨q, hx, hy, hfresh⟩⟩

/-- A refusal tells the number by its text, and the target type by its name. -/
theorem eq_of_convert_eq_error (p : Pair a b)
    (h : p.convert x = .error err) : err = ⟨Element.text a x, b.name⟩ := by
  cases p with
  | into e t => exact eq_of_toRanged_eq_error h
  | out t e => exact eq_of_ofRanged_eq_error h

/-- What was converted is converted back, into the fresh element with its
number. -/
theorem convert_back (p : Pair a b) (h : p.convert x = .ok y) :
    p.back.convert y = .ok (fresh a x) := by
  obtain ⟨q, hx, hy, _⟩ := p.convert_eq_ok_iff.1 h
  exact p.back.convert_eq_ok_iff.2
    ⟨q, hy, (number?_fresh a x).trans hx, fresh_fresh a x⟩

/-- Between two machine integer types there are conversions in both directions,
and they agree. -/
theorem convert_congr (p p' : Pair a b) (x : Element a) :
    p.convert x = p'.convert x := by
  cases h : p.convert x with
  | ok y => exact (p'.convert_eq_ok_iff.2 (p.convert_eq_ok_iff.1 h)).symm
  | error err =>
      cases h' : p'.convert x with
      | ok y =>
          rw [p.convert_eq_ok_iff.2 (p'.convert_eq_ok_iff.1 h')] at h
          cases h
      | error err' =>
          rw [p.eq_of_convert_eq_error h, p'.eq_of_convert_eq_error h']

end Pair

/-- A floating-point number is cut off towards zero, and then it has to be in
range. -/
theorem truncateInto?_eq_some_iff_number {f : BinaryFormat} {x : Binary f}
    {y : Ranged t} :
    truncateInto? t x = some y ↔
      ∃ q, x.datum.number? = some q ∧
        y.val = if 0 ≤ q then ⌊q⌋ else ⌈q⌉ := by
  rw [truncateInto?_eq_some_iff]
  constructor
  · intro h
    obtain ⟨q, hq⟩ := Option.isSome_iff_exists.1
      (x.datum.isSome_number?.trans (by rw [h, Option.isSome_some]))
    rw [Datum.truncate?_of_number? hq, Option.some.injEq] at h
    exact ⟨q, hq, h.symm⟩
  · rintro ⟨q, hq, hy⟩
    rw [Datum.truncate?_of_number? hq, hy]

/-- A conversion is answered exactly if its source denotes a number and the target
type has an element for that number, and the answer denotes the same number.
Otherwise the refusal tells the source and the target. What was answered can be
converted back, and is still the same number. There is one conversion for a pair
of types, even where two programs are written for it. All this although an
integer is rounded to the nearest floating-point number, and a floating-point
number is cut off at the point. -/
theorem conversions_exact {a b : ElementType} (p : Pair a b) (x : Element a) :
    ((∃ y, p.convert x = .ok y) ↔
      ∃ q, number? a x = some q ∧ b.Represents q) ∧
    (∀ y, p.convert x = .ok y →
      (∃ q, number? a x = some q ∧ number? b y = some q) ∧
      ∃ z, p.back.convert y = .ok z ∧ number? a z = number? a x) ∧
    (∀ err, p.convert x = .error err → err = ⟨Element.text a x, b.name⟩) ∧
    (∀ p' : Pair a b, p'.convert x = p.convert x) ∧
    (∀ (f : BinaryFormat) (n : Int), (Binary.ofInt f n).IsNearest n) ∧
    ∀ (t : IntType) (f : BinaryFormat) (y : Binary f) (z : Ranged t),
      truncateInto? t y = some z ↔
        ∃ q, y.datum.number? = some q ∧
          z.val = if 0 ≤ q then ⌊q⌋ else ⌈q⌉ := by
  refine ⟨p.exists_convert_iff, fun y h => ⟨?_, ?_⟩, fun _ => p.eq_of_convert_eq_error,
    fun p' => p'.convert_congr p x, Binary.isNearest_ofInt,
    fun _ _ _ _ => truncateInto?_eq_some_iff_number⟩
  · obtain ⟨q, hx, hy, _⟩ := p.convert_eq_ok_iff.1 h
    exact ⟨q, hx, hy⟩
  · exact ⟨fresh a x, p.convert_back h, number?_fresh a x⟩

/-- The power of two from which on `f64` leaves out every second integer. It is
converted, and its successor is refused, as are the greatest number of `u128`,
which is rounded to infinity in `f32`, and one and a half. -/
theorem conversions_exact_two_pow_53 :
    (Pair.out (.signed .w64) (.float .binary64)).convert
        ⟨9007199254740992, by decide⟩ =
      .ok (⟨0x4340000000000000#64⟩ : Binary .binary64) ∧
    number? (.float .binary64) (⟨0x4340000000000000#64⟩ : Binary .binary64) =
      some 9007199254740992 ∧
    (Pair.out (.signed .w64) (.float .binary64)).convert
        ⟨9007199254740993, by decide⟩ =
      .error ⟨"9007199254740993", "f64"⟩ ∧
    (Pair.out (.unsigned .w128) (.float .binary32)).convert
        ⟨340282366920938463463374607431768211455, by decide⟩ =
      .error ⟨"340282366920938463463374607431768211455", "f32"⟩ ∧
    (Pair.into (.float .binary64) (.signed .w32)).convert
        (⟨0x3ff8000000000000#64⟩ : Binary .binary64) =
      .error ⟨"1.5", "i32"⟩ := by
  have hpow : (Pair.out (.signed .w64) (.float .binary64)).convert
      ⟨9007199254740992, by decide⟩ =
      .ok (⟨0x4340000000000000#64⟩ : Binary .binary64) := by decide +kernel
  obtain ⟨q, hx, hy⟩ := ((conversions_exact
    (.out (.signed .w64) (.float .binary64)) ⟨9007199254740992, by decide⟩).2.1
      _ hpow).1
  refine ⟨hpow, ?_, ?_, ?_, ?_⟩
  · rw [hy, ← hx]
    exact congrArg some (by norm_num)
  all_goals decide +kernel

end Cast

end KroneckerCode

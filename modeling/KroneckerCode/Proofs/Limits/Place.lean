import KroneckerCode.Proofs.Limits.Entry

/-!
# The places of an entry

Encoder and decoder both carry a place with them and multiply it by the number
of digits of one component after the other. In a lawful entry the place of
index `k` is the number of vectors that the first `k` bounds allow. It divides
the number of all vectors, so it stays a word at every index, and behind the
last component it reaches that number exactly.
-/

namespace KroneckerCode.Limits.Entry

open MixedRadix

variable {s : WordSize} {e : Entry s} {k : Nat} {b place : Word s}

/-- The worth of the place of component `k`. -/
def placeAt (e : Entry s) (k : Nat) : Nat := count (e.digitBounds.take k)

/-- The numbers that moving to the next place computes, none of them reduced. -/
structure StepFits (e : Entry s) (place b : Word s) : Prop where
  base : 1 ≤ b.toInt + b.toInt + 1 ∧
    b.toInt + b.toInt + 1 ≤ e.delta.toInt + 1
  next : 1 ≤ place.toInt * (b.toInt + b.toInt + 1) ∧
    place.toInt * (b.toInt + b.toInt + 1) ≤ e.delta.toInt + 1

theorem placeAt_pos (e : Entry s) (k : Nat) : 0 < e.placeAt k := count_pos _

theorem placeAt_succ {β : Nat} (hβ : e.digitBounds[k]? = some β) :
    e.placeAt (k + 1) = e.placeAt k * MixedRadix.base β := by
  rw [placeAt, List.take_add_one, hβ, Option.toList_some, count_concat, placeAt]

theorem placeAt_le_count (e : Entry s) (k : Nat) :
    e.placeAt k ≤ count e.digitBounds := count_take_le _ k

/-- The number of codes is a word, and so is every count of some of them. -/
theorem Lawful.holds_of_le_delta_succ (h : e.Lawful) {n : Int} (h₀ : 0 ≤ n)
    (h₁ : n ≤ e.delta.toInt + 1) : s.Holds n :=
  h.holds (by omega) (by rw [h.count_eq]; exact h₁)

theorem Lawful.stepFits (h : e.Lawful) (hb : e.bounds[k]? = some b)
    (hp : place.toInt = e.placeAt k) : e.StepFits place b := by
  obtain ⟨β, hbβ, hβ⟩ := h.getElem?_digitBounds hb
  have hbase : b.toInt + b.toInt + 1 = (MixedRadix.base β : Int) := by
    rw [hbβ, MixedRadix.base]
    omega
  have hle : MixedRadix.base β ≤ count e.digitBounds :=
    base_le_count (List.mem_of_getElem? hβ)
  have hgrow := placeAt_le_count e (k + 1)
  have hpos := placeAt_pos e (k + 1)
  have hnext : place.toInt * (b.toInt + b.toInt + 1) = e.placeAt (k + 1) := by
    rw [hp, hbase, placeAt_succ hβ, Nat.cast_mul]
  have hdelta := h.count_eq
  refine ⟨by omega, ?_⟩
  rw [hnext]
  omega

/-! ## The words denote these numbers -/

theorem StepFits.toInt_double (h : e.StepFits place b) (hl : e.Lawful) :
    (b + b).toInt = b.toInt + b.toInt := by
  have hbase := h.base
  exact Word.toInt_add_of_holds
    (hl.holds_of_le_delta_succ (by omega) (by omega))

theorem StepFits.toInt_base (h : e.StepFits place b) (hl : e.Lawful) :
    (b + b + 1).toInt = b.toInt + b.toInt + 1 := by
  have hbase := h.base
  rw [Word.toInt_add_of_holds, h.toInt_double hl, Word.toInt_one]
  rw [h.toInt_double hl, Word.toInt_one]
  exact hl.holds_of_le_delta_succ (by omega) hbase.2

theorem StepFits.toInt_next (h : e.StepFits place b) (hl : e.Lawful) :
    (place * (b + b + 1)).toInt =
      place.toInt * (b.toInt + b.toInt + 1) := by
  have hnext := h.next
  rw [Word.toInt_mul_of_holds, h.toInt_base hl]
  rw [h.toInt_base hl]
  exact hl.holds_of_le_delta_succ (by omega) hnext.2

theorem Lawful.toInt_nextPlace (h : e.Lawful) (hb : e.bounds[k]? = some b)
    (hp : place.toInt = e.placeAt k) :
    (place * (b + b + 1)).toInt = e.placeAt (k + 1) := by
  obtain ⟨β, hbβ, hβ⟩ := h.getElem?_digitBounds hb
  rw [(h.stepFits hb hp).toInt_next h, hp, placeAt_succ hβ, hbβ,
    MixedRadix.base]
  push_cast
  rw [Int.two_mul]

end KroneckerCode.Limits.Entry

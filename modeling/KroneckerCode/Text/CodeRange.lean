/-!
# Ranges of characters

A class of characters is a list of ranges of code points. A table keeps its
ranges in ascending order and apart from one another, so a look-up may stop at
the first range that begins beyond what it looks for. It loses nothing by
stopping: it finds exactly the members, and that is how membership is decided.
-/

namespace KroneckerCode.Text

/-- The code points from `first` to `last`, ends included. -/
structure CodeRange where
  /-- The least code point. -/
  first : Nat
  /-- The greatest code point. -/
  last : Nat

namespace CodeRange

/-- Whether `n` lies in one of the ranges; stops at the first that begins beyond it. -/
def covers : List CodeRange → Nat → Bool
  | [], _ => false
  | range :: rest, n =>
    if n < range.first then false
    else if n ≤ range.last then true
    else covers rest n

/-- No range is empty, the first begins at `bound` or later, and a gap stands before each next. -/
def ascendingFrom : Nat → List CodeRange → Bool
  | _, [] => true
  | bound, range :: rest =>
    decide (bound ≤ range.first) && decide (range.first ≤ range.last)
      && ascendingFrom (range.last + 2) rest

theorem bound_le_first {bound : Nat} {ranges : List CodeRange}
    (h : ascendingFrom bound ranges = true) : ∀ range ∈ ranges, bound ≤ range.first := by
  induction ranges generalizing bound with
  | nil => intro range hmem; cases hmem
  | cons head rest ih =>
    simp only [ascendingFrom, Bool.and_eq_true, decide_eq_true_eq] at h
    obtain ⟨⟨hbound, hle⟩, hrest⟩ := h
    intro range hmem
    cases hmem with
    | head => exact hbound
    | tail _ hmem =>
      have := ih hrest range hmem
      omega

/-- Over ascending ranges the look-up finds exactly the members. -/
theorem covers_eq_true_iff {bound n : Nat} {ranges : List CodeRange}
    (h : ascendingFrom bound ranges = true) :
    covers ranges n = true ↔ ∃ range ∈ ranges, range.first ≤ n ∧ n ≤ range.last := by
  induction ranges generalizing bound with
  | nil => simp [covers]
  | cons head rest ih =>
    simp only [ascendingFrom, Bool.and_eq_true, decide_eq_true_eq] at h
    obtain ⟨⟨_, hle⟩, hrest⟩ := h
    have hcons : (∃ range ∈ head :: rest, range.first ≤ n ∧ n ≤ range.last) ↔
        (head.first ≤ n ∧ n ≤ head.last) ∨ covers rest n = true := by
      simp [ih hrest]
    rw [hcons, covers]
    by_cases hfirst : n < head.first
    · have hnone : covers rest n ≠ true := by
        rw [Ne, ih hrest]
        intro ⟨range, hmem, hrange⟩
        have := bound_le_first hrest range hmem
        omega
      rw [if_pos hfirst]
      exact ⟨fun h => absurd h Bool.false_ne_true,
        fun h => h.elim (fun hhead => absurd hfirst (Nat.not_lt.2 hhead.1)) (absurd · hnone)⟩
    · rw [if_neg hfirst]
      by_cases hlast : n ≤ head.last
      · rw [if_pos hlast]
        exact ⟨fun _ => Or.inl ⟨Nat.le_of_not_lt hfirst, hlast⟩, fun _ => rfl⟩
      · rw [if_neg hlast]
        exact ⟨Or.inr, fun h => h.resolve_left fun hhead => hlast hhead.2⟩

end CodeRange

/-- A class of characters. -/
structure CodeTable where
  /-- The ranges, in their order. -/
  ranges : List CodeRange
  /-- They ascend, with a gap before each next. -/
  ascending : CodeRange.ascendingFrom 0 ranges = true

namespace CodeTable

/-- The code points of a table are those in its ranges. -/
instance : Membership Nat CodeTable :=
  ⟨fun table n => ∃ range ∈ table.ranges, range.first ≤ n ∧ n ≤ range.last⟩

instance (n : Nat) (table : CodeTable) : Decidable (n ∈ table) :=
  decidable_of_iff (CodeRange.covers table.ranges n = true)
    (CodeRange.covers_eq_true_iff table.ascending)

end CodeTable

end KroneckerCode.Text

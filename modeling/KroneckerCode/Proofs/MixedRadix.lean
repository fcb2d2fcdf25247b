import KroneckerCode.MixedRadix
import Mathlib.Data.List.Forall2
import Mathlib.Tactic.LinearCombination
import Mathlib.Tactic.Ring

/-!
# Vectors and their ranks

The vectors that a list of bounds allows stand in an order: the first component
counts fastest, and each runs from its least value to its greatest. The `rank`
of a vector is its position in that order, and `unrank` finds the vector of a
position. Both follow the list of bounds from the front, so one digit is put
before, or taken from, the number that the other digits make.

The coders do not work from the front. An encoder adds its digits at the far
end, each times the worth of its place, and a decoder looks at one place in the
middle of the number. What they need is therefore said at the end of the list:
`rank_concat` is one step of the encoder, and `unrank_drop` is where a decoder
stands.

The integer that a vector stands for is its rank, counted from the middle: the
weight of the greatest vector lies above the weight of any other by as much as
the last rank lies above its rank (`weigh_add_dot`).
-/

namespace KroneckerCode.MixedRadix

/-- The position of a vector among the vectors that the bounds allow. -/
def rank : List Nat → List Int → Nat
  | b :: bs, d :: ds => (d + b).toNat + base b * rank bs ds
  | _, _ => 0

/-- The vector at a position. -/
def unrank : List Nat → Nat → List Int
  | [], _ => []
  | b :: bs, x => (((x % base b : Nat) : Int) - b) :: unrank bs (x / base b)

theorem base_pos (b : Nat) : 0 < base b := Nat.succ_pos _

theorem count_pos (bounds : List Nat) : 0 < count bounds := by
  induction bounds with
  | nil => exact Nat.one_pos
  | cons b bs ih => exact Nat.mul_pos (base_pos b) ih

theorem count_append (as bs : List Nat) :
    count (as ++ bs) = count as * count bs := by
  induction as with
  | nil => rw [List.nil_append, count, Nat.one_mul]
  | cons a as ih => rw [List.cons_append, count, count, ih, Nat.mul_assoc]

theorem count_concat (bs : List Nat) (b : Nat) :
    count (bs ++ [b]) = count bs * base b := by
  rw [count_append, count, count, Nat.mul_one]

/-- The place of a component divides the number of all vectors. -/
theorem count_take_mul_count_drop (bounds : List Nat) (k : Nat) :
    count (bounds.take k) * count (bounds.drop k) = count bounds := by
  rw [← count_append, List.take_append_drop]

theorem count_take_le (bounds : List Nat) (k : Nat) :
    count (bounds.take k) ≤ count bounds := by
  rw [← count_take_mul_count_drop bounds k]
  exact Nat.le_mul_of_pos_right _ (count_pos _)

theorem base_le_count {bounds : List Nat} {b : Nat} (h : b ∈ bounds) :
    base b ≤ count bounds := by
  obtain ⟨as, bs, rfl⟩ := List.append_of_mem h
  rw [count_append, count]
  calc base b ≤ base b * count bs := Nat.le_mul_of_pos_right _ (count_pos bs)
    _ ≤ count as * (base b * count bs) :=
      Nat.le_mul_of_pos_left _ (count_pos as)

theorem count_le_count {as bs : List Nat}
    (h : List.Forall₂ (· ≤ ·) as bs) : count as ≤ count bs := by
  induction h with
  | nil => exact Nat.le_refl _
  | cons hab _ ih =>
      rw [count, count]
      exact Nat.mul_le_mul (by rw [base, base]; omega) ih

theorem count_lt_count {as bs : List Nat}
    (h : List.Forall₂ (· < ·) as bs) (hne : as ≠ []) :
    count as < count bs := by
  cases h with
  | nil => exact absurd rfl hne
  | @cons a b as bs hab htail =>
      have hle := count_le_count (htail.imp fun _ _ => Nat.le_of_lt)
      have hbase : base a < base b := by rw [base, base]; omega
      rw [count, count]
      calc base a * count as < base b * count as :=
            Nat.mul_lt_mul_of_pos_right hbase (count_pos as)
        _ ≤ base b * count bs := Nat.mul_le_mul_left _ hle

/-! ## Allowed vectors -/

theorem Allows.length_eq {bounds : List Nat} {digits : List Int}
    (h : Allows bounds digits) : digits.length = bounds.length := by
  induction bounds generalizing digits with
  | nil =>
      cases digits with
      | nil => rfl
      | cons d ds => exact False.elim h
  | cons b bs ih =>
      cases digits with
      | nil => exact False.elim h
      | cons d ds => rw [List.length_cons, List.length_cons, ih h.2]

theorem allows_append {as bs : List Nat} {cs ds : List Int}
    (hlen : cs.length = as.length) :
    Allows (as ++ bs) (cs ++ ds) ↔ Allows as cs ∧ Allows bs ds := by
  induction as generalizing cs with
  | nil =>
      rw [List.length_eq_zero_iff.1 hlen]
      simp only [List.nil_append, Allows, true_and]
  | cons a as ih =>
      obtain ⟨c, cs, rfl⟩ := List.exists_cons_of_length_eq_add_one hlen
      simp only [List.length_cons, Nat.add_right_cancel_iff] at hlen
      simp only [List.cons_append, Allows, ih hlen, and_assoc]

theorem allows_concat {bs : List Nat} {ds : List Int} {b : Nat} {d : Int}
    (h : Allows bs ds) (hd : -(b : Int) ≤ d ∧ d ≤ b) :
    Allows (bs ++ [b]) (ds ++ [d]) :=
  (allows_append h.length_eq).2 ⟨h, hd, trivial⟩

theorem allows_unrank (bounds : List Nat) (x : Nat) :
    Allows bounds (unrank bounds x) := by
  induction bounds generalizing x with
  | nil => trivial
  | cons b bs ih =>
      have hlt := Nat.mod_lt x (base_pos b)
      rw [base] at hlt
      refine ⟨?_, ih _⟩
      rw [base]
      omega

@[simp] theorem length_unrank (bounds : List Nat) (x : Nat) :
    (unrank bounds x).length = bounds.length := (allows_unrank bounds x).length_eq

/-! ## Rank and vector -/

theorem rank_lt_count {bounds : List Nat} {digits : List Int}
    (h : Allows bounds digits) : rank bounds digits < count bounds := by
  induction bounds generalizing digits with
  | nil => exact Nat.one_pos
  | cons b bs ih =>
      cases digits with
      | nil => exact False.elim h
      | cons d ds =>
          obtain ⟨hd, hds⟩ := h
          have hdigit : (d + b).toNat < base b := by rw [base]; omega
          rw [rank, count]
          calc (d + b).toNat + base b * rank bs ds
              < base b * (rank bs ds + 1) := by rw [Nat.mul_succ]; omega
            _ ≤ base b * count bs := Nat.mul_le_mul_left _ (ih hds)

/-- The rank of the vector at a position is the position again. Positions past
the last vector start over. -/
theorem rank_unrank (bounds : List Nat) (x : Nat) :
    rank bounds (unrank bounds x) = x % count bounds := by
  induction bounds generalizing x with
  | nil => rw [rank, count, Nat.mod_one]; simp
  | cons b bs ih =>
      rw [unrank, rank, ih, count, Int.sub_add_cancel, Int.toNat_natCast,
        Nat.mod_mul]

theorem rank_unrank_of_lt {bounds : List Nat} {x : Nat}
    (hx : x < count bounds) : rank bounds (unrank bounds x) = x := by
  rw [rank_unrank, Nat.mod_eq_of_lt hx]

/-- The vector at the rank of an allowed vector is that vector again. -/
theorem unrank_rank {bounds : List Nat} {digits : List Int}
    (h : Allows bounds digits) : unrank bounds (rank bounds digits) = digits := by
  induction bounds generalizing digits with
  | nil =>
      cases digits with
      | nil => rfl
      | cons d ds => exact False.elim h
  | cons b bs ih =>
      cases digits with
      | nil => exact False.elim h
      | cons d ds =>
          obtain ⟨hd, hds⟩ := h
          have hdigit : (d + b).toNat < base b := by rw [base]; omega
          have hcast : ((d + b).toNat : Int) - b = d := by omega
          rw [rank, unrank, Nat.add_mul_mod_self_left, Nat.mod_eq_of_lt hdigit,
            hcast, Nat.add_mul_div_left _ _ (base_pos b),
            Nat.div_eq_of_lt hdigit, Nat.zero_add, ih hds]

/-! ## One more component at the far end -/

/-- A component behind the others counts the place above theirs. -/
theorem rank_concat {bs : List Nat} {ds : List Int} (b : Nat) (d : Int)
    (hlen : ds.length = bs.length) :
    rank (bs ++ [b]) (ds ++ [d]) =
      rank bs ds + (d + b).toNat * count bs := by
  induction bs generalizing ds with
  | nil =>
      rw [List.length_eq_zero_iff.1 hlen]
      simp only [List.nil_append, rank, count]
      omega
  | cons c cs ih =>
      obtain ⟨e, ds, rfl⟩ := List.exists_cons_of_length_eq_add_one hlen
      simp only [List.length_cons, Nat.add_right_cancel_iff] at hlen
      simp only [List.cons_append, rank, count, ih hlen]
      ring

/-- What is left of a position above the first `k` places is the position of
the components behind them. -/
theorem unrank_drop (bounds : List Nat) (x k : Nat) :
    unrank (bounds.drop k) (x / count (bounds.take k)) =
      (unrank bounds x).drop k := by
  induction k generalizing bounds x with
  | zero => rw [List.take_zero, count, Nat.div_one, List.drop_zero,
      List.drop_zero]
  | succ k ih =>
      cases bounds with
      | nil => rfl
      | cons b bs =>
          rw [List.drop_succ_cons, List.take_succ_cons, count, unrank,
            List.drop_succ_cons, ← Nat.div_div_eq_div_mul, ih]

/-! ## Weights -/

theorem weighFrom_add_dot {bs : List Nat} {ds : List Int} (h : Allows bs ds)
    (first : Nat) :
    weighFrom first bs ds + dot (placesFrom first bs) bs =
      first * rank bs ds := by
  induction bs generalizing ds first with
  | nil =>
      cases ds with
      | nil => simp [weighFrom, placesFrom, dot, rank]
      | cons d ds => exact False.elim h
  | cons b bs ih =>
      cases ds with
      | nil => exact False.elim h
      | cons d ds =>
          obtain ⟨hd, hds⟩ := h
          have hrest := ih hds (first * base b)
          have hdigit : ((d + b).toNat : Int) = d + b :=
            Int.toNat_of_nonneg (by omega)
          rw [weighFrom, placesFrom, dot, rank]
          push_cast at hrest ⊢
          rw [hdigit]
          linear_combination hrest

/-- The weight of a vector and that of the greatest one make its rank. -/
theorem weigh_add_dot {bs : List Nat} {ds : List Int} (h : Allows bs ds) :
    weigh bs ds + dot (places bs) bs = rank bs ds := by
  have hrank := weighFrom_add_dot h 1
  rw [Nat.cast_one, Int.one_mul] at hrank
  exact hrank

theorem rank_inj {bs : List Nat} {cs ds : List Int} (hc : Allows bs cs)
    (hd : Allows bs ds) : rank bs cs = rank bs ds ↔ cs = ds := by
  constructor
  · intro h
    rw [← unrank_rank hc, h, unrank_rank hd]
  · rintro rfl
    rfl

/-- No two allowed vectors stand for the same integer. -/
theorem weigh_inj {bs : List Nat} {cs ds : List Int} (hc : Allows bs cs)
    (hd : Allows bs ds) : weigh bs cs = weigh bs ds ↔ cs = ds := by
  have hcs := weigh_add_dot hc
  have hds := weigh_add_dot hd
  rw [← rank_inj hc hd]
  omega

theorem weighFrom_map_neg (first : Nat) (bs : List Nat) (ds : List Int) :
    weighFrom first bs (ds.map Neg.neg) = -weighFrom first bs ds := by
  induction bs generalizing ds first with
  | nil => simp [weighFrom]
  | cons b bs ih =>
      cases ds with
      | nil => simp [weighFrom]
      | cons d ds =>
          rw [List.map_cons, weighFrom, weighFrom, ih]
          ring

/-- Weights add up component by component, whatever the components are. -/
theorem weighFrom_zipWith_add (first : Nat) (bs : List Nat) {cs ds : List Int}
    (hlen : cs.length = ds.length) :
    weighFrom first bs (List.zipWith (· + ·) cs ds) =
      weighFrom first bs cs + weighFrom first bs ds := by
  induction bs generalizing cs ds first with
  | nil => simp [weighFrom]
  | cons b bs ih =>
      cases cs with
      | nil =>
          obtain rfl := List.length_eq_zero_iff.1 hlen.symm
          simp [weighFrom]
      | cons c cs =>
          obtain ⟨d, ds, rfl⟩ :=
            List.exists_cons_of_length_eq_add_one hlen.symm
          simp only [List.length_cons, Nat.add_right_cancel_iff] at hlen
          rw [List.zipWith_cons_cons, weighFrom, weighFrom, weighFrom, ih _ hlen]
          ring

/-- The greatest vector has every component at its bound. -/
theorem weighFrom_bounds (first : Nat) (bs : List Nat) :
    weighFrom first bs (bs.map Nat.cast) = dot (placesFrom first bs) bs := by
  induction bs generalizing first with
  | nil => simp [weighFrom, placesFrom, dot]
  | cons b bs ih =>
      rw [List.map_cons, weighFrom, placesFrom, dot, ih]
      push_cast
      ring

theorem allows_bounds (bs : List Nat) : Allows bs (bs.map Nat.cast) := by
  induction bs with
  | nil => trivial
  | cons b bs ih => exact ⟨by omega, ih⟩

theorem allows_map_neg {bs : List Nat} {ds : List Int} (h : Allows bs ds) :
    Allows bs (ds.map Neg.neg) := by
  induction bs generalizing ds with
  | nil =>
      cases ds with
      | nil => trivial
      | cons d ds => exact False.elim h
  | cons b bs ih =>
      cases ds with
      | nil => exact False.elim h
      | cons d ds =>
          obtain ⟨hd, hds⟩ := h
          exact ⟨by omega, ih hds⟩

end KroneckerCode.MixedRadix

import KroneckerCode.Proofs.Integer.Observe
import KroneckerCode.Proofs.Limits.Wider

/-!
# The search keeps the last state that fits

A search stops at the first state that does not fit, and what it keeps is the
state before. Stopping there gives nothing away. The steps could go on for ever,
and the greatest code would rise with each of them, while a state fits only if
`2 * hMax + 1` is a word: so what fits is an initial piece of the whole sequence
(`ExitsAt.fits_iff`), and the state that is kept is the last of it.

That one number decides is seen from the others. An entry is made of the bounds,
of `hMin` and `hMax` and of the width of the range between them, and each of
these is nearer to zero than the number of codes, which is one more than the
width. So when the number of codes is a word they all are.
-/

namespace KroneckerCode.Limits.Search

open MixedRadix

variable {σ : Type} {draws : Draws σ} {growth : Nat} {s : WordSize}

/-- The states of dimension `m`, one step after the other for ever. -/
def states (draws : Draws σ) (growth m : Nat) (k : Nat) : State σ :=
  (State.seed draws m).after draws growth k

theorem states_succ (draws : Draws σ) (growth m k : Nat) :
    states draws growth m (k + 1) =
      (states draws growth m k).step draws growth :=
  State.after_succ _ k

theorem consistent_states (hp : Progressive draws growth) {m : Nat}
    (hm : 1 ≤ m) (k : Nat) : (states draws growth m k).Consistent :=
  ((State.consistent_seed draws hm).after hp k).1

namespace State

variable {st : State σ}

/-- Whether an entry can be made of the state. -/
def Fits (st : State σ) (s : WordSize) : Prop := (st.entryIn? s).isSome

instance (st : State σ) (s : WordSize) : Decidable (st.Fits s) :=
  inferInstanceAs (Decidable ((st.entryIn? s).isSome = true))

/-- The numbers that an entry of the state is made of. -/
def entryNumbers (st : State σ) : List Int :=
  -st.hMax :: st.hMax :: (st.hMax - -st.hMax) :: st.bounds.map Nat.cast

theorem Consistent.fits_iff (h : st.Consistent) :
    st.Fits s ↔ 2 * (st.hMax : Int) + 1 ≤ s.maxValue := by
  rw [Fits, h.isSome_entryIn?_iff, h.count_eq]
  omega

theorem Consistent.abs_le_of_mem_entryNumbers (h : st.Consistent) {n : Int}
    (hn : n ∈ st.entryNumbers) :
    -(2 * (st.hMax : Int) + 1) ≤ n ∧ n ≤ 2 * st.hMax + 1 := by
  simp only [entryNumbers, List.mem_cons, List.mem_map] at hn
  rcases hn with rfl | rfl | rfl | ⟨b, hb, rfl⟩
  · omega
  · omega
  · omega
  · have hbase := base_le_count hb
    rw [h.count_eq, base] at hbase
    omega

/-- If the number of codes is a word, so is everything in the entry. -/
theorem Consistent.holds_entryNumbers (h : st.Consistent)
    (hcount : s.Holds (2 * (st.hMax : Int) + 1)) :
    ∀ n ∈ st.entryNumbers, s.Holds n := by
  intro n hn
  obtain ⟨hlo, hhi⟩ := h.abs_le_of_mem_entryNumbers hn
  exact hcount.of_abs_le hlo hhi

/-- The states that fit are those before the exit. -/
theorem ExitsAt.fits_iff (hp : Progressive draws growth) (h : st.Consistent)
    {k : Nat} (hk : st.ExitsAt draws growth s k) (j : Nat) :
    (st.after draws growth j).Fits s ↔ j < k := by
  constructor
  · intro hfits
    by_contra hle
    have hmax := (h.after_le hp (Nat.not_lt.1 hle)).2
    have hj := (h.after hp j).1.fits_iff.1 hfits
    have hexit : (st.after draws growth k).Fits s :=
      (h.after hp k).1.fits_iff.2 (by omega)
    rw [Fits, hk.exceeds] at hexit
    cases hexit
  · exact hk.fits j

end State

/-- What a search finds is made of the last state that fits, if the first one
does. -/
theorem run_best_eq (hp : Progressive draws growth) (s : WordSize) {m : Nat}
    (hm : 1 ≤ m) :
    (¬ (states draws growth m 0).Fits s ∧
      (run draws growth s m).best = none) ∨
    ∃ k, (run draws growth s m).best =
        (states draws growth m k).entryIn? s ∧
      ∀ j, (states draws growth m j).Fits s ↔ j ≤ k := by
  obtain ⟨k, hexit, hrun⟩ := exists_run_eq hp s hm
  have hfits := hexit.fits_iff hp (State.consistent_seed draws hm)
  rw [hrun]
  cases k with
  | zero => exact Or.inl ⟨fun h => Nat.not_lt_zero 0 ((hfits 0).1 h), rfl⟩
  | succ k =>
      refine Or.inr ⟨k, rfl, fun j => ?_⟩
      rw [← Nat.lt_succ_iff]
      exact hfits j

/-- A state fits if and only if the number of its codes is a word, and all that
goes into its entry is a word then. A search finds nothing if the first state
does not fit. Else it finds the entry of the last state that fits: every state
up to that one does, and none behind it. -/
theorem search_keeps_last_fit {draws : Draws σ} {config : Config}
    (hv : config.validate = .ok ()) (hd : draws.Within config.percent)
    (s : WordSize) {m : Nat} (hm : 1 ≤ m) :
    (∀ k, (states draws config.growth m k).Fits s ↔
      2 * ((states draws config.growth m k).hMax : Int) + 1 ≤ s.maxValue) ∧
    (∀ k (codes : Integer),
      codes.value = 2 * ((states draws config.growth m k).hMax : Int) + 1 →
      (codes.toWord? s).isSome →
      ∀ x : Integer,
        x.value ∈ (states draws config.growth m k).entryNumbers →
        (x.toWord? s).isSome) ∧
    (¬ (states draws config.growth m 0).Fits s →
      (run draws config.growth s m).best = none) ∧
    ((states draws config.growth m 0).Fits s →
      ∃ k e, (run draws config.growth s m).best = some e ∧
        (states draws config.growth m k).entryIn? s = some e ∧
        ∀ j, (states draws config.growth m j).Fits s ↔ j ≤ k) := by
  have hp := Progressive.of_valid hv hd
  have hcons : ∀ k, (states draws config.growth m k).Consistent := fun k =>
    ((State.consistent_seed draws hm).after hp k).1
  refine ⟨fun k => (hcons k).fits_iff, ?_, ?_, ?_⟩
  · intro k codes hcodes hword x hx
    rw [Integer.isSome_toWord?_iff] at hword ⊢
    rw [hcodes] at hword
    exact (hcons k).holds_entryNumbers hword _ hx
  · intro hnot
    rcases run_best_eq hp s hm with ⟨_, hbest⟩ | ⟨k, _, hfits⟩
    · exact hbest
    · exact absurd ((hfits 0).2 (Nat.zero_le k)) hnot
  · intro hfirst
    rcases run_best_eq hp s hm with ⟨hnot, _⟩ | ⟨k, hbest, hfits⟩
    · exact absurd hfirst hnot
    · obtain ⟨e, he⟩ := Option.isSome_iff_exists.1 ((hfits k).2 (Nat.le_refl k))
      exact ⟨k, e, hbest.trans he, he, hfits⟩

/-- The greatest spread there may be, the least growth and nothing but least
draws: in words of sixteen bits eight states of three components fit. In bytes
there is no room for five components. -/
theorem search_keeps_last_fit_least_draws :
    (constantDraws (-49)).Within 49 ∧ (⟨49, 2⟩ : Config).validate = .ok () ∧
    (∀ j, (states (constantDraws (-49)) 2 3 j).Fits .w16 ↔ j ≤ 7) ∧
    (states (constantDraws (-49)) 2 3 7).entryIn? .w16 =
      some ⟨[11, 11, 17], -9257, 9257, 18514⟩ ∧
    (run (constantDraws (-49)) 2 .w16 3).best =
      some ⟨[11, 11, 17], -9257, 9257, 18514⟩ ∧
    ((Integer.large 18515).toWord? .w16).isSome ∧
    ((Integer.inline 17).toWord? .w16).isSome ∧
    2 * ((states (constantDraws (-49)) 2 3 7).hMax : Int) + 1 ≤
      WordSize.w16.maxValue ∧
    (run (constantDraws (-49)) 2 .w8 5).best = none := by
  have hd : (constantDraws (-49)).Within 49 :=
    within_constantDraws (by decide) (by decide)
  have hvalid : (⟨49, 2⟩ : Config).validate = .ok () := rfl
  obtain ⟨hcount, hwords, _, hlast⟩ :=
    search_keeps_last_fit hvalid hd .w16 (show 1 ≤ 3 by decide)
  obtain ⟨_, _, hnothing, _⟩ :=
    search_keeps_last_fit hvalid hd .w8 (show 1 ≤ 5 by decide)
  have hseven : (states (constantDraws (-49)) 2 3 7).Fits .w16 := by
    decide +kernel
  have height : ¬ (states (constantDraws (-49)) 2 3 8).Fits .w16 := by
    decide +kernel
  have hentry : (states (constantDraws (-49)) 2 3 7).entryIn? .w16 =
      some ⟨[11, 11, 17], -9257, 9257, 18514⟩ := by decide +kernel
  obtain ⟨k, e, hbest, he, hfits⟩ := hlast (by decide +kernel)
  obtain rfl : k = 7 := by
    have hle := (hfits 7).1 hseven
    have hlt := mt (hfits 8).2 height
    omega
  have hsame := he.symm.trans hentry
  have hcodes : ((Integer.large 18515).toWord? .w16).isSome := by
    decide +kernel
  exact ⟨hd, hvalid, hfits, hentry, hbest.trans hsame, hcodes,
    hwords 7 (.large 18515) (by decide +kernel) hcodes (.inline 17)
      (by decide +kernel),
    (hcount 7).1 hseven, hnothing (by decide +kernel)⟩

end KroneckerCode.Limits.Search

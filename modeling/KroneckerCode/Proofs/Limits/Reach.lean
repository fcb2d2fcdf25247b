import KroneckerCode.Proofs.Limits.Last

/-!
# Little of the range is left unused

A search stops at the first state that does not fit, and the state before is
what it keeps. So the numbers of codes of these two states have the greatest
word between them, and how much of the range is left unused is a matter of how
far one step can jump.

It cannot jump far. The number of digits of a component is multiplied by the
growth factor, shifted up by no more than the spread, and rounded up to a prime;
and as there is a prime between a number and its double, and the search for one
steps over none, rounding up does not more than double. That holds of the last
bound as well, although not its number of digits is rounded but the bound: the
half that is cut off before makes up for the one digit that is added behind.
The jumps of the components multiply, so with `m` of them the number of codes
grows by no more than the `m`-th power of one jump (`count_mul_pow_le`).
-/

namespace KroneckerCode.Limits

open MixedRadix

variable {σ : Type}

namespace Search

/-! ## One number -/

/-- There is a prime between a number and its double, and it is not stepped
over. -/
theorem nextPrime_le_two_mul {n : Int} (h : 0 < n) :
    (nextPrime n : Int) ≤ 2 * n := by
  obtain ⟨p, hp, hlt, hdouble⟩ :=
    Nat.exists_prime_lt_and_le_two_mul n.toNat (by omega)
  have hvalue := Integer.value_ofInt n
  have hnext := Integer.nextPrime_le (a := Integer.ofInt n) (p := p) (by omega)
    (Primality.probablePrime_of_prime hp)
  rw [nextPrime]
  omega

theorem shift_le {percent : Int} {spread : Nat} (h : percent ≤ spread)
    (x : Nat) : 100 * shift percent x ≤ ((100 + spread) * x : Nat) := by
  have hmul : (x : Int) * percent ≤ x * spread :=
    Int.mul_le_mul_of_nonneg_left h (Int.natCast_nonneg x)
  have hnonneg : (0 : Int) ≤ x * spread := by positivity
  rw [shift]
  push_cast
  rw [Int.add_mul, Int.mul_comm (spread : Int)]
  generalize (x : Int) * percent = n at hmul ⊢
  rcases Int.le_total 0 n with hn | hn
  · rw [Int.tdiv_eq_ediv_of_nonneg hn]
    omega
  · -- a shift down is cut toward zero, and so never upward
    have hcut : 0 ≤ (-n).tdiv 100 := Int.tdiv_nonneg (by omega) (by decide)
    rw [Int.neg_tdiv] at hcut
    omega

variable {draws : Draws σ} {growth spread : Nat}

theorem perturb_le (hd : draws.Within spread) (hs : spread < 50) (stream : σ)
    {x : Nat} (hx : 0 < x) :
    100 * (perturb draws stream x).1 ≤ 2 * ((100 + spread) * x) := by
  have hdraw := hd stream
  have hpos := lt_two_mul_shift (p := (draws.next stream).1) (by omega) hx
  have hshift := shift_le hdraw.2 x
  have hprime := nextPrime_le_two_mul
    (n := shift (draws.next stream).1 x) (by omega)
  rw [perturb_fst]
  omega

/-! ## One step -/

/-- How far a step can raise the number of digits of a component, in
hundredths. -/
def jump (growth spread : Nat) : Nat := 2 * growth * (100 + spread)

/-- The number of digits of a component is not raised farther than a jump. -/
def WithinJump (growth spread b b' : Nat) : Prop :=
  100 * base b' ≤ jump growth spread * base b

theorem withinJump_growBounds (hp : Progressive draws growth)
    (hd : draws.Within spread) (hs : spread < 50) {bs : List Nat}
    (hbs : ∀ b ∈ bs, 1 ≤ b) (stream : σ) :
    List.Forall₂ (WithinJump growth spread) bs
      (growBounds draws growth stream bs).1 := by
  induction bs generalizing stream with
  | nil => exact .nil
  | cons b bs ih =>
      have hodd := (hp.ratio stream (hbs b List.mem_cons_self)).2
      have hle := perturb_le hd hs stream
        (Nat.mul_pos (base_pos b) hp.growth_pos)
      refine .cons ?_ (ih (fun c hc => hbs c (List.mem_cons_of_mem _ hc)) _)
      show WithinJump growth spread b
        (((perturb draws stream (base b * growth)).1 - 1) / 2)
      rw [WithinJump, base_half hodd]
      calc 100 * (perturb draws stream (base b * growth)).1
          ≤ 2 * ((100 + spread) * (base b * growth)) := hle
        _ = jump growth spread * base b := by rw [jump]; ring

/-- The last bound is rounded up itself, and so its number of digits is one more
than twice a prime. -/
theorem withinJump_widen (hp : Progressive draws growth)
    (hd : draws.Within spread) (hs : spread < 50) (stream : σ) {last : Nat}
    (hl : 1 ≤ last) :
    WithinJump growth spread last
      (perturb draws stream (widen growth last)).1 := by
  have hwide := two_mul_le_widen hp last
  have hhalf : 2 * widen growth last + 1 ≤ base last * growth := by
    have hpos := Nat.mul_pos (base_pos last) hp.growth_pos
    rw [base] at hpos ⊢
    rw [widen]
    omega
  have hle := perturb_le hd hs stream (show 0 < widen growth last by omega)
  have hcut := Nat.mul_le_mul_left (2 * (100 + spread)) hhalf
  rw [WithinJump]
  calc 100 * base (perturb draws stream (widen growth last)).1
      ≤ 2 * (100 + spread) * (2 * widen growth last + 1) := by
        rw [base, Nat.mul_add (2 * (100 + spread)), Nat.mul_assoc 2,
          Nat.mul_left_comm _ 2]
        omega
    _ ≤ 2 * (100 + spread) * (base last * growth) := hcut
    _ = jump growth spread * base last := by rw [jump]; ring

theorem count_mul_pow_le {as bs : List Nat}
    (h : List.Forall₂ (WithinJump growth spread) as bs) :
    count bs * 100 ^ as.length ≤
      count as * jump growth spread ^ as.length := by
  induction h with
  | nil => exact Nat.le_refl _
  | @cons a b as bs hab _ ih =>
      rw [count, count, List.length_cons, Nat.pow_succ, Nat.pow_succ]
      rw [WithinJump] at hab
      calc base b * count bs * (100 ^ as.length * 100)
          = 100 * base b * (count bs * 100 ^ as.length) := by ring
        _ ≤ jump growth spread * base a *
              (count as * jump growth spread ^ as.length) :=
            Nat.mul_le_mul hab ih
        _ = _ := by ring

namespace State

theorem Consistent.withinJump_step (hp : Progressive draws growth)
    (hd : draws.Within spread) (hs : spread < 50) {st : State σ}
    (h : st.Consistent) :
    List.Forall₂ (WithinJump growth spread) st.bounds
      (st.step draws growth).bounds := by
  rw [step_eq hp h]
  exact List.rel_append
    (withinJump_growBounds hp hd hs h.one_le_inner st.stream)
    (.cons (withinJump_widen hp hd hs _ h.one_le_last) .nil)

end State

/-! ## The search -/

/-- What a search keeps has no more than a jump for every component to go to
the greatest word. -/
theorem maxValue_lt_of_run (hp : Progressive draws growth)
    (hd : draws.Within spread) (hs : spread < 50) {s : WordSize} {m : Nat}
    (hm : 1 ≤ m) {e : Entry s} (he : (run draws growth s m).best = some e) :
    s.maxValue * 100 ^ m <
      (e.delta.toInt + 1) * (jump growth spread : Int) ^ m := by
  have hseed := State.consistent_seed draws hm
  obtain ⟨k, hexit, hentry⟩ := exists_exit_of_run hp hm he
  have hcons := (hseed.after hp k).1
  have hlen := State.length_bounds_after hp hm k
  obtain ⟨hbounds, hlawful⟩ := hcons.lawful_of_entryIn? hentry
  -- the next state is the first that does not fit
  have hnext := (hseed.after hp (k + 1)).1
  have hexceeds : s.maxValue <
      count ((State.seed draws m).after draws growth (k + 1)).bounds := by
    have hnone := hexit.exceeds
    rw [← Option.not_isSome_iff_eq_none, hnext.isSome_entryIn?_iff] at hnone
    exact Int.not_le.1 hnone
  have hjump := count_mul_pow_le (hcons.withinJump_step hp hd hs)
  rw [hlen, ← State.after_succ, ← hbounds] at hjump
  rw [← hlawful.count_eq]
  calc s.maxValue * 100 ^ m
      < count ((State.seed draws m).after draws growth (k + 1)).bounds *
          100 ^ m := Int.mul_lt_mul_of_pos_right hexceeds (by positivity)
    _ ≤ count e.digitBounds * (jump growth spread : Int) ^ m := by
        exact_mod_cast hjump

end Search

/-- The entry of a dimension that fits in words leaves little of their range
unused. The number of its codes falls short of the greatest word by less than
the greatest growth of one step: for each component twice the growth factor and
the greatest shift up. -/
theorem found_entries_reach (dice : Nat → Draws σ) {config : Config}
    (hv : config.validate = .ok ())
    (hd : (dice config.percent).Within config.percent) (s : WordSize)
    {m : Nat} (hm : 1 ≤ m) (hfits : (Nat.pow 3 m : Int) ≤ s.maxValue) :
    ∃ e t, findWith dice s m config = .ok (some e) ∧
      buildWith dice s config = .ok t ∧ t.get? m = some e ∧
      s.maxValue * 100 ^ m < (e.delta.toInt + 1) *
        (2 * config.growth * (100 + config.percent)) ^ m := by
  obtain ⟨e, he⟩ := (findWith_eq_some_iff dice s m hv).2 hfits
  have hbuild := buildWith_of_validate dice s hv
  have hget := findWith_eq_get? dice s m hv
  rw [he, Except.ok.injEq] at hget
  refine ⟨e, _, he, hbuild, hget.symm, ?_⟩
  have hrun := hget.symm
  rw [get?_searchAll _ _ hm] at hrun
  have hpercent := ((Config.validate_eq_ok_iff config).1 hv).2
  have hreach := Search.maxValue_lt_of_run
    (Search.Progressive.of_valid hv hd) hd hpercent hm hrun
  rw [Search.jump] at hreach
  exact_mod_cast hreach

/-- The greatest spread there may be and nothing but greatest draws: of the words
of sixteen bits hardly more than one in twenty is a code of three components. -/
theorem found_entries_reach_greatest_draws :
    (constantDraws 49).Within 49 ∧ (⟨49, 3⟩ : Config).validate = .ok () ∧
    (Nat.pow 3 3 : Int) ≤ WordSize.w16.maxValue ∧
    findWith (fun _ => constantDraws 49) .w16 3 ⟨49, 3⟩ =
      .ok (some ⟨[6, 6, 5], -929, 929, 1858⟩) ∧
    WordSize.w16.maxValue * 100 ^ 3 <
      ((1858 : Word .w16).toInt + 1) * (2 * 3 * (100 + 49)) ^ 3 := by
  have hd : (constantDraws 49).Within 49 :=
    within_constantDraws (by decide) (by decide)
  have hvalid : (⟨49, 3⟩ : Config).validate = .ok () := rfl
  have hfits : (Nat.pow 3 3 : Int) ≤ WordSize.w16.maxValue := by decide
  have hfind : findWith (fun _ => constantDraws 49) .w16 3 ⟨49, 3⟩ =
      .ok (some ⟨[6, 6, 5], -929, 929, 1858⟩) := by decide +kernel
  obtain ⟨e, _, he, _, _, hreach⟩ := found_entries_reach
    (fun _ => constantDraws 49) hvalid hd .w16 (by decide) hfits
  rw [hfind, Except.ok.injEq, Option.some.injEq] at he
  subst he
  exact ⟨hd, hvalid, hfits, hfind, hreach⟩

end KroneckerCode.Limits

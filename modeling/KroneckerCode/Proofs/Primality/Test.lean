import KroneckerCode.Proofs.Primality.Power
import KroneckerCode.Proofs.Primality.Strong

/-!
# Both tests decide the same predicate

The test in numbers of any size is read first. Its halving loop finds the only
odd part there is, and its loop of squares finds minus one exactly if one of the
powers is minus one; so the verdict over all witnesses is `ProbablePrime`.

The test in words does the same with words. Every loop of it is the other one's
loop on the values of the words, because nothing is cut off modulo a word, and
so nothing about powers is proved twice.
-/

namespace KroneckerCode.Primality

/-! ## In numbers of any size -/

namespace Unbounded

theorem oddPart_mul_two_pow {d : Nat} (hd : d % 2 = 1) (s : Nat) :
    oddPart (d * 2 ^ s) = (d, s) := by
  induction s with
  | zero =>
      rw [Nat.pow_zero, Nat.mul_one, oddPart, if_neg (by omega)]
  | succ s ih =>
      have hpos : 0 < d * 2 ^ s := Nat.mul_pos (by omega) (Nat.two_pow_pos s)
      have hdouble : d * 2 ^ (s + 1) = 2 * (d * 2 ^ s) := by
        rw [Nat.pow_succ', Nat.mul_left_comm]
      have hhalf : 2 * (d * 2 ^ s) / 2 = d * 2 ^ s := by omega
      rw [hdouble, oddPart, if_pos (by omega), hhalf, ih]

/-- The halvings are fewer than the binary digits, so a counter of 32 bits has
room for them in every number of up to `2 ^ 32` digits. -/
theorem oddPart_snd_lt_bitLength {n : Nat} (hn : 0 < n) :
    (oddPart n).2 < bitLength n := by
  obtain ⟨s, d, hd, hsplit⟩ :=
    Nat.exists_eq_two_pow_mul_odd (Nat.ne_of_gt hn)
  rw [Nat.mul_comm] at hsplit
  rw [hsplit, oddPart_mul_two_pow (Nat.odd_iff.1 hd), ← Nat.not_le,
    bitLength_le_iff, Nat.not_lt]
  exact Nat.le_mul_of_pos_left _ hd.pos

/-- The powers met are those whose exponents are powers of two, one excepted. -/
theorem squaresReach_iff (n k x : Nat) :
    squaresReach n k x = true ↔ ∃ r < k, x ^ 2 ^ (r + 1) % n = n - 1 := by
  induction k generalizing x with
  | zero => simp [squaresReach]
  | succ k ih =>
      have hsquare : ∀ r, (x * x % n) ^ 2 ^ (r + 1) % n = x ^ 2 ^ (r + 2) % n := by
        intro r
        rw [← Nat.pow_mod, ← Nat.pow_two, ← Nat.pow_mul, ← Nat.pow_succ']
      rw [squaresReach, Bool.or_eq_true, beq_iff_eq, ih,
        Nat.exists_lt_succ_left, Nat.zero_add, Nat.pow_one, Nat.pow_two]
      simp only [hsquare]

theorem passes_iff {n s : Nat} (hn : 1 < n) (hs : 0 < s) (d a : Nat) :
    passes n d s a = true ↔ Strong n d s a := by
  obtain ⟨k, rfl⟩ : ∃ k, s = k + 1 := ⟨s - 1, by omega⟩
  have hpower : ∀ r, (a ^ d % n) ^ 2 ^ r % n = a ^ (d * 2 ^ r) % n := by
    intro r
    rw [← Nat.pow_mod, ← Nat.pow_mul]
  rw [Strong, Nat.exists_lt_succ_left, Nat.pow_zero, Nat.mul_one]
  simp only [passes, powMod_eq hn, Bool.or_eq_true, beq_iff_eq,
    squaresReach_iff, hpower, or_assoc, Nat.add_sub_cancel]

/-- The test over all witnesses, for a number that they do not divide. -/
theorem all_passes_iff {n : Nat} (hn : 1 < n) (hodd : n % 2 = 1) :
    (witnesses.all (passes n (oddPart (n - 1)).1 (oddPart (n - 1)).2)) = true ↔
      StrongToWitnesses n := by
  have hpart : ∀ {d s : Nat}, n = d * 2 ^ s + 1 → d % 2 = 1 →
      oddPart (n - 1) = (d, s) ∧ 0 < s := by
    intro d s hsplit hd
    refine ⟨?_, Nat.pos_of_ne_zero ?_⟩
    · rw [hsplit, Nat.add_sub_cancel, oddPart_mul_two_pow hd]
    · rintro rfl
      omega
  rw [List.all_eq_true]
  constructor
  · intro hall
    obtain ⟨d, s, hsplit, hd, hs⟩ := exists_odd_part hn hodd
    rw [(hpart hsplit hd).1] at hall
    exact ⟨d, s, hsplit, hd, fun a ha => (passes_iff hn hs d a).1 (hall a ha)⟩
  · rintro ⟨d, s, hsplit, hd, hall⟩ a ha
    obtain ⟨heq, hs⟩ := hpart hsplit hd
    rw [heq]
    exact (passes_iff hn hs d a).2 (hall a ha)

theorem isProbablePrime_iff {n : Nat} (hn : 1 < n) (hmem : n ∉ witnesses) :
    isProbablePrime n = true ↔ ProbablePrime n := by
  have hany : (witnesses.any fun p => n % p == 0) = true ↔
      ∃ p ∈ witnesses, p ∣ n := by
    simp only [List.any_eq_true, beq_iff_eq, Nat.dvd_iff_mod_eq_zero]
  rw [isProbablePrime, ProbablePrime, or_iff_right hmem]
  by_cases hdvd : ∃ p ∈ witnesses, p ∣ n
  · rw [if_pos (hany.2 hdvd)]
    obtain ⟨p, hp, hpn⟩ := hdvd
    exact iff_of_false Bool.false_ne_true fun h => h.2.1 p hp hpn
  · have hnone : ∀ p ∈ witnesses, ¬ p ∣ n := fun p hp h => hdvd ⟨p, hp, h⟩
    have htwo := hnone 2 (by decide)
    rw [if_neg (mt hany.1 hdvd), and_iff_right hn, and_iff_right hnone]
    exact all_passes_iff hn (by omega)

end Unbounded

/-! ## In words -/

theorem and_one_eq_zero_iff (x : UInt64) :
    x &&& 1 = 0 ↔ x.toNat % 2 = 0 := by
  rw [← UInt64.toNat_inj, toNat_and_one, UInt64.toNat_zero]

theorem oddPart_toNat (x : UInt64) :
    Unbounded.oddPart x.toNat = ((oddPart x).1.toNat, (oddPart x).2) := by
  fun_induction oddPart x with
  | case1 x h d s hpart ih =>
      have hne : x.toNat ≠ 0 := fun h0 => h.1 (UInt64.toNat_inj.1 h0)
      have heven := (and_one_eq_zero_iff x).1 h.2
      rw [toNat_shiftRight_one, hpart] at ih
      rw [Unbounded.oddPart, if_pos ⟨hne, heven⟩, ih]
  | case2 x h =>
      have hnot : ¬ (x.toNat ≠ 0 ∧ x.toNat % 2 = 0) := by
        rintro ⟨hne, heven⟩
        refine h ⟨fun h0 => hne ?_, (and_one_eq_zero_iff x).2 heven⟩
        rw [h0, UInt64.toNat_zero]
      rw [Unbounded.oddPart, if_neg hnot]

/-- Below a positive number there is no borrow. -/
theorem toNat_sub_one {n : UInt64} (hn : 0 < n.toNat) :
    (n - 1).toNat = n.toNat - 1 :=
  UInt64.toNat_sub_of_le n 1 hn

theorem beq_eq_beq_toNat (x y : UInt64) : (x == y) = (x.toNat == y.toNat) := by
  rw [Bool.eq_iff_iff, beq_iff_eq, beq_iff_eq, UInt64.toNat_inj]

theorem squaresReach_eq {n : UInt64} (hn : 0 < n.toNat) (k : Nat)
    (x : UInt64) :
    squaresReach n k x = Unbounded.squaresReach n.toNat k x.toNat := by
  induction k generalizing x with
  | zero => rfl
  | succ k ih =>
      simp only [squaresReach, Unbounded.squaresReach, ih, beq_eq_beq_toNat,
        toNat_mulMod hn, toNat_sub_one hn]

theorem passes_eq {n : UInt64} (hn : 1 < n.toNat) (d : UInt64) (s : Nat)
    (a : UInt64) :
    passes n d s a = Unbounded.passes n.toNat d.toNat s a.toNat := by
  have hpos : 0 < n.toNat := Nat.zero_lt_of_lt hn
  simp only [passes, Unbounded.passes, squaresReach_eq hpos, beq_eq_beq_toNat,
    toNat_powMod hn, Unbounded.powMod_eq hn, toNat_sub_one hpos,
    UInt64.toNat_one]

theorem map_toNat_witnessWords : witnessWords.map UInt64.toNat = witnesses := by
  decide

theorem mem_witnesses_iff {a : Nat} :
    a ∈ witnesses ↔ ∃ w ∈ witnessWords, w.toNat = a := by
  rw [← map_toNat_witnessWords, List.mem_map]

theorem all_passes_eq {n : UInt64} (hn : 1 < n.toNat) :
    witnessWords.all (passes n (oddPart (n - 1)).1 (oddPart (n - 1)).2) =
      witnesses.all (Unbounded.passes n.toNat
        (Unbounded.oddPart (n.toNat - 1)).1
        (Unbounded.oddPart (n.toNat - 1)).2) := by
  rw [← toNat_sub_one (Nat.zero_lt_of_lt hn), oddPart_toNat,
    ← map_toNat_witnessWords, List.all_map]
  refine congrArg _ (funext fun a => ?_)
  exact passes_eq hn _ _ a

theorem mod_beq_zero_iff (n p : UInt64) :
    (n % p == 0) = true ↔ p.toNat ∣ n.toNat := by
  rw [beq_iff_eq, ← UInt64.toNat_inj, UInt64.toNat_mod, UInt64.toNat_zero,
    Nat.dvd_iff_mod_eq_zero]

theorem isPrimeWord_iff (n : UInt64) :
    isPrimeWord n = true ↔ ProbablePrime n.toNat := by
  have htwo : n < 2 ↔ n.toNat < 2 := UInt64.lt_iff_toNat_lt
  rw [isPrimeWord]
  by_cases hlt : n < 2
  · rw [if_pos hlt]
    refine iff_of_false Bool.false_ne_true fun h => ?_
    have hone := h.one_lt
    have := htwo.1 hlt
    omega
  · have hn : 1 < n.toNat := by
      have := mt htwo.2 hlt
      omega
    rw [if_neg hlt]
    split
    · next p hfind =>
        have hp := mem_witnesses_iff.2 ⟨p, List.mem_of_find?_eq_some hfind, rfl⟩
        have hdvd := (mod_beq_zero_iff n p).1
          (List.find?_some (p := fun q => n % q == 0) hfind)
        rw [beq_iff_eq]
        constructor
        · rintro rfl
          exact Or.inl hp
        · intro h
          exact (UInt64.toNat_inj.1 (h.eq_of_dvd hp hdvd)).symm
    · next hfind =>
        have hnone : ∀ p ∈ witnesses, ¬ p ∣ n.toNat := by
          intro p hp h
          obtain ⟨w, hw, rfl⟩ := mem_witnesses_iff.1 hp
          exact List.find?_eq_none.1 hfind w hw ((mod_beq_zero_iff n w).2 h)
        have hmem : n.toNat ∉ witnesses := fun h => hnone _ h (dvd_refl _)
        have hodd := hnone 2 (by decide)
        have hall := Unbounded.all_passes_iff hn (by omega)
        rw [← all_passes_eq hn] at hall
        rw [ProbablePrime, or_iff_right hmem, and_iff_right hn,
          and_iff_right hnone]
        exact hall

end KroneckerCode.Primality

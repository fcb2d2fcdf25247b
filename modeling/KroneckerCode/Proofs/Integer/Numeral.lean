import KroneckerCode.Integer.Numeral
import Mathlib.Data.Nat.Digits.Defs

/-!
# What a numeral denotes

The reader goes over the characters once and multiplies as it goes. Here is what
it should answer, said without it: a digit is worth its place in the alphabet of
digits, the digits of a numeral are its characters behind the sign but for the
underscores, and they denote the sum of their worths, each times the power of the
radix for the digits behind it (`exact`). A text is refused for the first of three
reasons: the radix, the missing body, a character that is worth too much.

The loop of the reader has some digits behind it when it meets the others, and
what it has read of them is the factor of all the rest (`readDigits_eq`).
-/

namespace KroneckerCode.Numeral

/-! ## The meaning of the digits -/

/-- The digits in the order of their worth. -/
def alphabet : List Char :=
  ['0', '1', '2', '3', '4', '5', '6', '7', '8', '9', 'a', 'b', 'c', 'd', 'e', 'f',
    'g', 'h', 'i', 'j', 'k', 'l', 'm', 'n', 'o', 'p', 'q', 'r', 's', 't', 'u', 'v',
    'w', 'x', 'y', 'z']

/-- What a character is worth as a digit, in either case. One that is no digit is
worth 36, which is too much for every radix. -/
def worth (c : Char) : Nat := alphabet.idxOf c.toLower

/-- The worths of all characters but the underscores. -/
def worths (cs : List Char) : List Nat := (cs.filter (· ≠ '_')).map worth

/-- Minus one behind a minus, and one otherwise. -/
def sign : List Char → Int
  | '-' :: _ => -1
  | _ => 1

/-- What stands behind the sign. -/
def body : List Char → List Char
  | '-' :: rest => rest
  | '+' :: rest => rest
  | cs => cs

/-- The integer that a text denotes as a numeral, or why it is none. -/
def exact (radix : Nat) (cs : List Char) : Except NumeralError Int :=
  if 2 ≤ radix ∧ radix ≤ 36 then
    if body cs = [] then .error .noDigits
    else if ∀ d ∈ worths (body cs), d < radix then
      .ok (sign cs * Nat.ofDigits radix (worths (body cs)).reverse)
    else .error .invalidDigit
  else .error .unsupportedRadix

/-! ## The reader -/

theorem worths_underscore (cs : List Char) : worths ('_' :: cs) = worths cs := rfl

theorem worths_cons {c : Char} (hc : c ≠ '_') (cs : List Char) :
    worths (c :: cs) = worth c :: worths cs := by
  simp [worths, hc]

theorem lt_of_mem_alphabet {c : Char} (h : c ∈ alphabet) : c.toNat < 128 := by
  have hall : alphabet.all (fun c => decide (c.toNat < 128)) = true := by decide
  exact of_decide_eq_true (List.all_eq_true.1 hall c h)

theorem digitValue?_ofNat : ∀ n < 128,
    digitValue? (Char.ofNat n) =
      if worth (Char.ofNat n) < 36 then some (worth (Char.ofNat n)) else none := by
  decide +kernel

/-- The ranges that the reader looks at are those of the alphabet, in two cases. -/
theorem digitValue?_eq (c : Char) :
    digitValue? c = if worth c < 36 then some (worth c) else none := by
  rcases Nat.lt_or_ge c.toNat 128 with hlt | hge
  · have hascii := digitValue?_ofNat c.toNat hlt
    rwa [Char.ofNat_toNat] at hascii
  · have habove : ∀ d : Char, d.toNat < 128 → ¬ c ≤ d := fun d hd hle =>
      Nat.not_lt.2 (Nat.le_trans hge hle) hd
    have hlower : c.toLower = c :=
      dif_neg fun h => habove 'Z' (by decide) h.2
    have hworth : worth c = 36 := by
      rw [worth, hlower]
      refine List.idxOf_eq_length fun h => ?_
      exact Nat.not_lt.2 hge (lt_of_mem_alphabet h)
    rw [hworth, digitValue?, if_neg fun h => habove '9' (by decide) h.2,
      if_neg fun h => habove 'z' (by decide) h.2,
      if_neg fun h => habove 'Z' (by decide) h.2]
    rfl

theorem digit?_eq {radix : Nat} (hradix : radix ≤ 36) (c : Char) :
    digit? radix c = if worth c < radix then some (worth c) else none := by
  rw [digit?, digitValue?_eq]
  by_cases hlt : worth c < radix
  · rw [if_pos hlt, if_pos (Nat.lt_of_lt_of_le hlt hradix)]
    exact Option.filter_some_pos (decide_eq_true hlt)
  · rw [if_neg hlt]
    split
    · exact Option.filter_some_neg (decide_eq_false hlt)
    · rfl

/-- Behind a number that has been read, its digits count as so many powers of the
radix as there are digits to come. -/
theorem readDigits_eq {radix : Nat} (hradix : radix ≤ 36) (n : Nat) (cs : List Char) :
    readDigits radix n cs =
      if ∀ d ∈ worths cs, d < radix then
        .ok (n * radix ^ (worths cs).length +
          Nat.ofDigits radix (worths cs).reverse)
      else .error .invalidDigit := by
  induction cs generalizing n with
  | nil => simp [readDigits, worths]
  | cons c cs ih =>
      rw [readDigits]
      split
      · next hc => rw [ih, hc, worths_underscore]
      · next hc =>
          rw [worths_cons hc, digit?_eq hradix]
          by_cases hlt : worth c < radix
          · -- what has been read moves up by one place, and the digit comes behind it
            have hshift : (n * radix + worth c) * radix ^ (worths cs).length =
                n * radix ^ ((worths cs).length + 1) +
                  radix ^ (worths cs).length * worth c := by ring
            simp only [hlt, if_true, ih, List.forall_mem_cons, true_and, hshift,
              List.length_cons, Nat.ofDigits_reverse_cons]
            rw [Nat.add_assoc, Nat.add_comm (radix ^ _ * _)]
          · simp only [hlt, if_false, List.forall_mem_cons, false_and]

theorem readMagnitude_eq {radix : Nat} (hradix : radix ≤ 36) (cs : List Char) :
    readMagnitude radix cs =
      if cs = [] then .error .noDigits
      else if ∀ d ∈ worths cs, d < radix then
        .ok (Nat.ofDigits radix (worths cs).reverse)
      else .error .invalidDigit := by
  rw [readMagnitude, readDigits_eq hradix, Nat.zero_mul, Nat.zero_add]
  simp only [List.isEmpty_iff]

theorem read_eq (radix : Nat) (cs : List Char) :
    read radix cs =
      if radix < 2 ∨ 36 < radix then .error .unsupportedRadix
      else (readMagnitude radix (body cs)).map fun n : Nat => sign cs * (n : Int) := by
  unfold read
  split
  · rfl
  · split
    · next rest =>
        have hsign : sign ('-' :: rest) = -1 := rfl
        simp only [hsign, body, Int.neg_one_mul]
    · next rest =>
        have hsign : sign ('+' :: rest) = 1 := rfl
        simp only [hsign, body, Int.one_mul]
    · simp only [sign, body, Int.one_mul]

/-- The reader answers with the integer that the text denotes. -/
theorem read_eq_exact (radix : Nat) (cs : List Char) :
    read radix cs = exact radix cs := by
  rw [read_eq, exact]
  by_cases hradix : 2 ≤ radix ∧ radix ≤ 36
  · rw [if_neg (by omega), if_pos hradix, readMagnitude_eq hradix.2]
    split
    · rfl
    · split <;> rfl
  · rw [if_pos (by omega), if_neg hradix]

/-! ## The texts of integers -/

theorem worths_digitChar : ∀ d < 10, worths [d.digitChar] = [d] := by decide

theorem worths_append (cs cs' : List Char) :
    worths (cs ++ cs') = worths cs ++ worths cs' := by
  rw [worths, List.filter_append, List.map_append]
  rfl

theorem worths_toDigits (n : Nat) :
    (∀ d ∈ worths (Nat.toDigits 10 n), d < 10) ∧
      Nat.ofDigits 10 (worths (Nat.toDigits 10 n)).reverse = n := by
  induction n using Nat.strong_induction_on with
  | _ n ih =>
      rcases Nat.lt_or_ge n 10 with hlt | hge
      · rw [Nat.toDigits_of_lt_base hlt, worths_digitChar n hlt]
        exact ⟨by simpa using hlt, Nat.ofDigits_singleton⟩
      · obtain ⟨hbelow, hvalue⟩ := ih (n / 10) (by omega)
        have hlast : n % 10 < 10 := Nat.mod_lt n (by decide)
        rw [Nat.toDigits_of_base_le (by decide) hge, worths_append,
          worths_digitChar _ hlast]
        constructor
        · intro d hd
          rcases List.mem_append.1 hd with hd | hd
          · exact hbelow d hd
          · rw [List.mem_singleton.1 hd]
            exact hlast
        · rw [List.reverse_append, List.reverse_singleton, List.singleton_append,
            Nat.ofDigits_cons, hvalue]
          omega

theorem exact_of_body_eq {cs : List Char} {n : Nat}
    (h : body cs = Nat.toDigits 10 n) : exact 10 cs = .ok (sign cs * n) := by
  obtain ⟨hbelow, hvalue⟩ := worths_toDigits n
  rw [exact, if_pos (by decide), h, if_neg Nat.toDigits_ne_nil, if_pos hbelow,
    hvalue]

/-- A text that begins with a digit has no sign. -/
theorem sign_body_toDigits (n : Nat) :
    sign (Nat.toDigits 10 n) = 1 ∧
      body (Nat.toDigits 10 n) = Nat.toDigits 10 n := by
  have hdigit : ∀ c ∈ Nat.toDigits 10 n, c.isDigit = true := fun c hc =>
    Nat.isDigit_of_mem_toDigits (by decide) (by decide) hc
  generalize Nat.toDigits 10 n = cs at hdigit ⊢
  unfold sign body
  split
  · exact absurd (hdigit '-' List.mem_cons_self) (by decide)
  · split
    · exact absurd (hdigit '-' List.mem_cons_self) (by decide)
    · exact absurd (hdigit '+' List.mem_cons_self) (by decide)
    · exact ⟨rfl, rfl⟩

/-- The text of an integer is a numeral that denotes it. -/
theorem exact_toString (n : Int) : exact 10 (toString n).toList = .ok n := by
  have htext (k : Nat) : (toString k).toList = Nat.toDigits 10 k :=
    String.toList_ofList
  cases n with
  | ofNat k =>
      obtain ⟨hsign, hbody⟩ := sign_body_toDigits k
      show exact 10 (toString k).toList = .ok (k : Int)
      rw [htext, exact_of_body_eq hbody, hsign, Int.one_mul]
  | negSucc k =>
      have hminus : (toString (Int.negSucc k)).toList =
          '-' :: Nat.toDigits 10 (k + 1) := by
        show ("-" ++ toString (k + 1)).toList = _
        rw [String.toList_append, htext]
        rfl
      rw [hminus, exact_of_body_eq rfl]
      exact congrArg Except.ok (Int.neg_one_mul _)

end KroneckerCode.Numeral

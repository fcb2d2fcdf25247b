import KroneckerCode.Proofs.Integer.Arithmetic
import KroneckerCode.Proofs.Integer.Numeral
import KroneckerCode.Proofs.Integer.Observe

/-!
# Programs compute with exact integers

Beside the registers with their storages there is a machine whose registers hold
integers of mathematics. It has no words, no overflow and no storage: promotion
does nothing there, a numeral is what its digits denote, and a comparison or an
observation sees the integers alone. One instruction of a program answers as that
machine does, once the storage in the answer is forgotten, and leaves registers
with the values that are there (`forget_execute`). So does a whole program, from
the first instruction to the last, those that fail included (`forget_run`).

Promotions can then be put in and left out at will: the exact machine does not
notice them, except that each of them has a reply.
-/

namespace KroneckerCode.Integer

namespace Program

open Primality

/-! ## The exact machine -/

/-- What an answer says, apart from storage. -/
inductive Reply where
  | value (n : Int)
  | isPrime (verdict : Prop)
  | comparison (c : Comparison)
  | observation (o : Observation)

/-- The answer without its storage. -/
def Answer.forget : Answer → Reply
  | .integer a => .value a.value
  | .isPrime answer => .isPrime (answer = true)
  | .comparison c => .comparison c
  | .observation o _ => .observation o

/-- Registers that hold integers of mathematics. -/
def Values := String → Option Int

/-- Puts an integer into a register. -/
def Values.set (v : Values) (name : String) (n : Int) : Values :=
  fun other => if other = name then some n else v other

/-- Looks up a register. -/
def Values.get (v : Values) (name : String) : Except Failure Int :=
  match v name with
  | some n => .ok n
  | none => .error (.unset name)

/-- The registers without their storage. -/
def Registers.values (r : Registers) : Values := fun name => (r name).map value

/-- The integer that is loaded, said without its storage and without the reader. -/
def Origin.exact : Origin → Except Failure Int
  | word w => .ok w.toInt
  | machine _ x => .ok x.val
  | unbounded n => .ok n
  | numeral text radix => (Numeral.exact radix text.toList).mapError .numeral
  | zero => .ok 0
  | one => .ok 1

/-- The operation on integers of mathematics. -/
noncomputable def UnaryOp.exact (n : Int) : UnaryOp → Int
  | copy => n
  | abs => |n|
  | neg => -n
  | nextPrime => leastPrimeFrom n
  | pow exp => n ^ exp

/-- The operation on integers of mathematics, with the quotient cut toward zero. -/
def BinaryOp.exact (m n : Int) : BinaryOp → Except Fault Int
  | add => .ok (m + n)
  | sub => .ok (m - n)
  | mul => .ok (m * n)
  | div => if n = 0 then .error .zeroDivisor else .ok (m.tdiv n)
  | mod => if n = 0 then .error .zeroDivisor else .ok (m.tmod n)

/-- Looks up the operand. -/
def Operand.exact (v : Values) : Operand → Except Failure Int
  | register name => v.get name
  | word w => .ok w.toInt

/-- Carries out one instruction on exact integers. -/
noncomputable def Instr.evaluate (v : Values) :
    Instr → Except Failure (Reply × Values)
  | load target origin => do
    let n ← origin.exact
    return (.value n, v.set target n)
  | unary target op a => do
    let n := op.exact (← v.get a)
    return (.value n, v.set target n)
  | binary target op a b => do
    let left ← v.get a
    let right ← b.exact v
    let n ← (op.exact left right).mapError .fault
    return (.value n, v.set target n)
  | promote a => do
    return (.value (← v.get a), v)
  | isPrime a => do
    return (.isPrime (ProbablePrime (← v.get a).toNat), v)
  | compare a b => do
    let left ← v.get a
    let right ← v.get b
    return (.comparison ⟨Ord.compare left right, decide (left = right)⟩, v)
  | observe a => do
    return (.observation (.ofValue (← v.get a)), v)

/-- Carries out a program on exact integers. -/
noncomputable def evaluate (v : Values) :
    List Instr → List (Except Failure Reply) × Values
  | [] => ([], v)
  | i :: rest =>
    match i.evaluate v with
    | .ok (reply, v') =>
      let (replies, last) := evaluate v' rest
      (.ok reply :: replies, last)
    | .error failure =>
      let (replies, last) := evaluate v rest
      (.error failure :: replies, last)

/-- What is left of an answer and of registers without their storage. -/
def forget (x : Answer × Registers) : Reply × Values :=
  (x.1.forget, x.2.values)

/-! ## One instruction -/

variable {r : Registers} {v : Values}

theorem values_set (r : Registers) (name : String) (a : Integer) :
    (r.set name a).values = r.values.set name a.value := by
  funext other
  simp only [Registers.values, Registers.set, Values.set]
  split <;> rfl

theorem values_set_promote {name : String} {a : Integer}
    (h : r.get name = .ok a) : (r.set name a.promote).values = r.values := by
  have hname : r name = some a := by
    rw [Registers.get] at h
    cases hr : r name with
    | none => rw [hr] at h; cases h
    | some x => rw [hr] at h; rw [Except.ok.inj h]
  rw [values_set]
  funext other
  simp only [Values.set, Registers.values]
  split
  · next heq => rw [heq, hname, Option.map_some, value_promote]
  · rfl

theorem map_value_get (r : Registers) (name : String) :
    (r.get name).map value = r.values.get name := by
  rw [Registers.get, Values.get, Registers.values]
  cases r name <;> rfl

theorem map_value_ofNumeral (text : String) (radix : Nat) :
    (ofNumeral text radix).map value = Numeral.exact radix text.toList := by
  rw [ofNumeral, Numeral.read_eq_exact]
  cases Numeral.exact radix text.toList with
  | error err => rfl
  | ok n => exact congrArg Except.ok (value_ofInt n)

theorem map_value_load (origin : Origin) :
    origin.load.map value = origin.exact := by
  cases origin with
  | word w => rfl
  | machine t x => exact congrArg Except.ok (value_ofInt x.val)
  | unbounded n => exact congrArg Except.ok (value_ofInt n)
  | numeral text radix =>
      rw [Origin.load, Origin.exact, ← map_value_ofNumeral]
      cases ofNumeral text radix with
      | error err => rfl
      | ok a => rfl
  | zero => rfl
  | one => rfl

theorem value_apply (op : UnaryOp) (a : Integer) :
    (op.apply a).value = op.exact a.value := by
  cases op with
  | copy => rfl
  | abs => exact (value_abs a).trans (Int.abs_eq_natAbs _).symm
  | neg => exact value_neg a
  | nextPrime => exact value_nextPrime a
  | pow exp => exact value_pow a exp

theorem map_value_apply (op : BinaryOp) (a b : Integer) :
    (op.apply a b).map value = op.exact a.value b.value := by
  cases op with
  | add => exact congrArg Except.ok (value_add a b)
  | sub => exact congrArg Except.ok (value_sub a b)
  | mul => exact congrArg Except.ok (value_mul a b)
  | div => exact map_value_div a b
  | mod => exact map_value_mod a b

theorem map_value_operand (r : Registers) (b : Operand) :
    (b.get r).map value = b.exact r.values := by
  cases b with
  | register name => exact map_value_get r name
  | word w => rfl

/-- What is done with an operand can be followed beside its value, if it can be
followed from there on. -/
theorem map_bind {α β : Type} {x : Except Failure Integer}
    {f : Integer → Except Failure α} {k : α → β} {g : Int → Except Failure β}
    (h : ∀ a, x = .ok a → (f a).map k = g a.value) :
    (x >>= f).map k = x.map value >>= g := by
  cases x with
  | error failure => rfl
  | ok a => exact h a rfl

theorem forget_set (target : String) (a : Integer) :
    forget (.integer a, r.set target a) =
      (.value a.value, r.values.set target a.value) := by
  rw [forget, values_set]
  rfl

/-- An instruction does what it does on exact integers. -/
theorem forget_execute (r : Registers) (i : Instr) :
    (i.execute r).map forget = i.evaluate r.values := by
  cases i with
  | load target origin =>
      rw [Instr.execute, Instr.evaluate, ← map_value_load]
      refine map_bind fun a _ => ?_
      exact congrArg Except.ok (forget_set target a)
  | unary target op a =>
      rw [Instr.execute, Instr.evaluate, ← map_value_get]
      refine map_bind fun x _ => ?_
      rw [← value_apply]
      exact congrArg Except.ok (forget_set target (op.apply x))
  | binary target op a b =>
      rw [Instr.execute, Instr.evaluate, ← map_value_get, ← map_value_operand]
      refine map_bind fun x _ => map_bind fun y _ => ?_
      rw [← map_value_apply]
      cases op.apply x y with
      | error fault => rfl
      | ok z => exact congrArg Except.ok (forget_set target z)
  | promote a =>
      rw [Instr.execute, Instr.evaluate, ← map_value_get]
      refine map_bind fun x hx => ?_
      have hkeep := values_set_promote hx
      exact congrArg (fun v => Except.ok (Reply.value x.value, v)) hkeep
  | isPrime a =>
      rw [Instr.execute, Instr.evaluate, ← map_value_get]
      refine map_bind fun x _ => ?_
      rw [← isPrime_iff]
      rfl
  | compare a b =>
      rw [Instr.execute, Instr.evaluate, ← map_value_get, ← map_value_get]
      refine map_bind fun x _ => map_bind fun y _ => ?_
      rw [compareWith_eq]
      rfl
  | observe a =>
      rw [Instr.execute, Instr.evaluate, ← map_value_get]
      refine map_bind fun x _ => ?_
      rw [observe_eq]
      rfl

/-! ## Whole programs -/

/-- A program does what it does on exact integers. -/
theorem forget_run (r : Registers) (p : List Instr) :
    ((run r p).1.map (Except.map Answer.forget), (run r p).2.values) =
      evaluate r.values p := by
  induction p generalizing r with
  | nil => rfl
  | cons i rest ih =>
      rw [run, evaluate, ← forget_execute]
      cases i.execute r with
      | error failure =>
          simp only [Except.map, ← ih]
          rfl
      | ok x =>
          simp only [Except.map, forget, ← ih]
          rfl

/-- Whether an instruction moves an integer into the other storage. -/
def Instr.isPromotion : Instr → Bool
  | promote _ => true
  | _ => false

/-- The program with all promotions left out. -/
def withoutPromotions (p : List Instr) : List Instr :=
  p.filter fun i => !i.isPromotion

/-- What is told by the instructions that are not promotions. -/
def told {α : Type} (p : List Instr) (replies : List α) : List α :=
  ((p.zip replies).filter fun x => !x.1.isPromotion).map Prod.snd

theorem withoutPromotions_cons (i : Instr) (p : List Instr) :
    withoutPromotions (i :: p) =
      if i.isPromotion then withoutPromotions p
      else i :: withoutPromotions p := by
  rw [withoutPromotions, List.filter_cons]
  cases i.isPromotion <;> rfl

theorem told_cons {α : Type} (i : Instr) (p : List Instr) (x : α)
    (replies : List α) :
    told (i :: p) (x :: replies) =
      if i.isPromotion then told p replies else x :: told p replies := by
  rw [told, List.zip_cons_cons, List.filter_cons]
  cases i.isPromotion <;> rfl

/-- The exact registers after an instruction, which may have failed. -/
noncomputable def Instr.after (v : Values) (i : Instr) : Values :=
  match i.evaluate v with
  | .ok (_, v') => v'
  | .error _ => v

theorem evaluate_cons (v : Values) (i : Instr) (rest : List Instr) :
    evaluate v (i :: rest) =
      ((i.evaluate v).map Prod.fst :: (evaluate (i.after v) rest).1,
        (evaluate (i.after v) rest).2) := by
  rw [evaluate, Instr.after]
  cases i.evaluate v <;> rfl

theorem after_of_isPromotion {i : Instr} (h : i.isPromotion = true) :
    i.after v = v := by
  cases i with
  | promote a =>
      rw [Instr.after, Instr.evaluate]
      cases v.get a <;> rfl
  | _ => cases h

/-- The exact machine does not notice promotions. -/
theorem evaluate_withoutPromotions (v : Values) (p : List Instr) :
    evaluate v (withoutPromotions p) =
      (told p (evaluate v p).1, (evaluate v p).2) := by
  induction p generalizing v with
  | nil => rfl
  | cons i rest ih =>
      rw [withoutPromotions_cons, evaluate_cons, told_cons]
      split
      · next h => rw [ih, after_of_isPromotion h]
      · rw [evaluate_cons, ih]

theorem told_run (r : Registers) (p : List Instr) :
    (told p ((run r p).1.map (Except.map Answer.forget)),
        (run r p).2.values) =
      evaluate r.values (withoutPromotions p) := by
  rw [evaluate_withoutPromotions, ← forget_run]

/-- What two programs tell that differ in promotions alone, from registers that
differ in storage alone. -/
theorem told_run_congr {r r' : Registers} {p p' : List Instr}
    (hr : r.values = r'.values)
    (hp : withoutPromotions p = withoutPromotions p') :
    told p ((run r p).1.map (Except.map Answer.forget)) =
        told p' ((run r' p').1.map (Except.map Answer.forget)) ∧
      (run r p).2.values = (run r' p').2.values := by
  have h := told_run r p
  rw [hr, hp, ← told_run] at h
  exact ⟨congrArg Prod.fst h, congrArg Prod.snd h⟩

/-- Programs compute with exact integers. Their answers are those of the exact
machine, apart from storage, and so are the values that they leave in the
registers. With promotions put in or left out, all other answers are the same.
A numeral is read as the integer that its digits denote, and the text of an
integer reads back as it. Only a divisor of zero has no quotient and no remainder,
and these fit together. What can be asked of integers depends on their values, and
their order is that of the values. -/
theorem programs_exact :
    (∀ r p, ((run r p).1.map (Except.map Answer.forget), (run r p).2.values) =
      evaluate r.values p) ∧
    (∀ r r' p p', r.values = r'.values →
      withoutPromotions p = withoutPromotions p' →
      told p ((run r p).1.map (Except.map Answer.forget)) =
          told p' ((run r' p').1.map (Except.map Answer.forget)) ∧
        (run r p).2.values = (run r' p').2.values) ∧
    (∀ text radix, (ofNumeral text radix).map value =
      Numeral.exact radix text.toList) ∧
    (∀ a : Integer, (ofNumeral (toString a) 10).map value = .ok a.value) ∧
    (∀ a b : Integer,
      (a.div b = .error .zeroDivisor ↔ b.value = 0) ∧
      (a.mod b = .error .zeroDivisor ↔ b.value = 0) ∧
      (b.value ≠ 0 → ∃ q r, a.div b = .ok q ∧ a.mod b = .ok r ∧
        q.value = a.value.tdiv b.value ∧ r.value = a.value.tmod b.value ∧
        a.value = q.value * b.value + r.value ∧ |r.value| < |b.value| ∧
        0 ≤ r.value * a.value)) ∧
    ∀ a b : Integer,
      a.compare b = Ord.compare a.value b.value ∧
      (a.value = b.value →
        a.observe = b.observe ∧ a.hashKey = b.hashKey ∧
        a.isPrime = b.isPrime ∧ a.nextPrime.value = b.nextPrime.value ∧
        ∀ c : Integer, a.compareWith c = b.compareWith c ∧
          c.compareWith a = c.compareWith b) := by
  refine ⟨forget_run, fun _ _ _ _ => told_run_congr, map_value_ofNumeral, ?_, ?_,
    ?_⟩
  · intro a
    rw [map_value_ofNumeral]
    exact Numeral.exact_toString a.value
  · intro a b
    exact ⟨div_eq_error_iff, mod_eq_error_iff, div_mod_eq_ok⟩
  · intro a b
    refine ⟨compare_eq a b, fun h => ?_⟩
    refine ⟨?_, hashKey_eq_iff.2 h, isPrime_congr h, ?_, fun c => ⟨?_, ?_⟩⟩
    · rw [observe_eq, observe_eq, h]
    · rw [value_nextPrime, value_nextPrime, h]
    · rw [compareWith_eq, compareWith_eq, h]
    · rw [compareWith_eq, compareWith_eq, h]

/-- The least word divided by minus one, with other instructions before. -/
def divideLeast (before : List Instr) : List Instr :=
  .load "a" (.word Int64.minValue) :: before ++
    [.binary "q" .div "a" (.word (-1)), .binary "m" .mod "a" (.word (-1)),
      .observe "m"]

/-- The quotient has no word, and neither storage shows it. The least word is also
what a numeral of sixteen digits denotes in the radix sixteen, with underscores
between them, and a digit of nine is refused in the radix eight. -/
theorem programs_exact_least_word :
    withoutPromotions (divideLeast [.promote "a"]) =
      withoutPromotions (divideLeast []) ∧
    (told (divideLeast [.promote "a"])
        ((run .empty (divideLeast [.promote "a"])).1.map
          (Except.map Answer.forget)) =
      told (divideLeast [])
        ((run .empty (divideLeast [])).1.map (Except.map Answer.forget)) ∧
      (run .empty (divideLeast [.promote "a"])).2.values =
        (run .empty (divideLeast [])).2.values) ∧
    (ofNumeral "-8000_0000_0000_0000" 16).map value = .ok (-2 ^ 63) ∧
    (ofNumeral "+9" 8).map value = .error .invalidDigit ∧
    (∃ q r, (inline Int64.minValue).div (inline (-1)) = .ok q ∧
      (inline Int64.minValue).mod (inline (-1)) = .ok r ∧
      q.value = 2 ^ 63 ∧ r.value = 0) ∧
    (large 5).observe = (inline 5).observe := by
  obtain ⟨_, hpromote, hnumeral, _, hdiv, hobserve⟩ := programs_exact
  have hprogram : withoutPromotions (divideLeast [.promote "a"]) =
      withoutPromotions (divideLeast []) := rfl
  obtain ⟨q, r, hq, hr, hquotient, hremainder, _⟩ :=
    (hdiv (inline Int64.minValue) (inline (-1))).2.2 (by decide)
  exact ⟨hprogram, hpromote .empty .empty _ _ rfl hprogram,
    (hnumeral _ _).trans (by decide +kernel),
    (hnumeral _ _).trans (by decide +kernel),
    ⟨q, r, hq, hr, hquotient.trans (by decide), hremainder.trans (by decide)⟩,
    ((hobserve (large 5) (inline 5)).2 rfl).1⟩

end Program

end KroneckerCode.Integer

import KroneckerCode.Proofs.Integer.Storage

/-!
# Large integers stay large

What the law of storage says of one operation is followed here through a whole
program. A `Rule` says when the result of an instruction has some property, from
exact values and from which operands have it, and carries the property from one
instruction to the next, beside the exact machine. The registers that hold inline
integers are carried by one rule, `Rule.inline`, and so they are known at the end
of every program from what they were at its start (`inline_run`).

Another rule carries what was computed from given registers, or from a promoted
one, however many instructions lie between. Two rules whose properties exclude
each other do so at the end if they do at the start, and one instruction at a
time is enough to see it (`Rule.Excludes.carry`). So nothing that was computed
from a large integer is inline, unless a search for a prime has begun at two or
below and forgotten what it began with.
-/

namespace KroneckerCode.Integer.Program

/-! ## Properties that are carried through a program -/

/-- The registers with a property. -/
abbrev Marks := String → Prop

/-- Gives a register the property, or takes it. -/
def Marks.set (l : Marks) (name : String) (P : Prop) : Marks :=
  fun other => if other = name then P else l other

/-- When the result of an instruction has a property. The numbers are those of
the operands and the result, and the propositions say which operands have it. -/
structure Rule where
  load : Int → Prop
  word : Prop
  unary : UnaryOp → Int → Int → Prop → Prop
  binary : BinaryOp → Int → Int → Int → Prop → Prop → Prop
  promote : Prop

/-- Whether the operand has the property. -/
def Operand.mark (R : Rule) (l : Marks) : Operand → Prop
  | register name => l name
  | word _ => R.word

/-- The registers with the property after one instruction. -/
noncomputable def Instr.mark (R : Rule) (v : Values) (l : Marks) :
    Instr → Except Failure Marks
  | load target origin => do
    let n ← origin.exact
    return l.set target (R.load n)
  | unary target op a => do
    let n ← v.get a
    return l.set target (R.unary op n (op.exact n) (l a))
  | binary target op a b => do
    let left ← v.get a
    let right ← b.exact v
    let n ← (op.exact left right).mapError .fault
    return l.set target (R.binary op left right n (l a) (b.mark R l))
  | promote a => do
    let _ ← v.get a
    return l.set a R.promote
  | isPrime a => do
    let _ ← v.get a
    return l
  | compare a b => do
    let _ ← v.get a
    let _ ← v.get b
    return l
  | observe a => do
    let _ ← v.get a
    return l

/-- The registers with the property after a program. -/
noncomputable def carry (R : Rule) (v : Values) (l : Marks) : List Instr → Marks
  | [] => l
  | i :: rest =>
    match i.mark R v l with
    | .ok l' => carry R (i.after v) l' rest
    | .error _ => carry R (i.after v) l rest

/-! ## Inline integers -/

/-- The storage of results. -/
def Rule.inline : Rule where
  load n := WordSize.w64.Holds n
  word := True
  unary := UnaryOp.KeepsInline
  binary := BinaryOp.KeepsInline
  promote := False

/-- The registers that hold inline integers. -/
def Registers.inline (r : Registers) : Marks :=
  fun name => ∃ a, r name = some a ∧ a.isInline = true

variable {r r' : Registers} {v : Values} {l l' : Marks} {name : String}
  {i : Instr} {a b : Integer}

theorem inline_set (r : Registers) (name : String) (a : Integer) :
    (r.set name a).inline = r.inline.set name (a.isInline = true) := by
  funext other
  simp only [Registers.inline, Registers.set, Marks.set]
  split <;> simp

theorem inline_of_get (h : r.get name = .ok a) :
    r.inline name = (a.isInline = true) := by
  rw [Registers.get] at h
  rw [Registers.inline]
  cases hr : r name with
  | none =>
      rw [hr] at h
      cases h
  | some b =>
      rw [hr] at h
      cases h
      simp

theorem mark_of_get {b : Operand} (h : b.get r = .ok a) :
    b.mark .inline r.inline = (a.isInline = true) := by
  cases b with
  | register name => exact inline_of_get h
  | word w =>
      cases h
      simp [Operand.mark, Rule.inline, isInline]

/-- The law of storage, for one instruction. -/
theorem inline_execute (r : Registers) (i : Instr) :
    (i.execute r).map (fun x => x.2.inline) =
      i.mark .inline r.values r.inline := by
  cases i with
  | load target origin =>
      rw [Instr.execute, Instr.mark, ← map_value_load]
      refine map_bind fun a ha => ?_
      have hinline := propext (isInline_of_load ha)
      show Except.ok (r.set target a).inline = _
      rw [inline_set, hinline]
      rfl
  | unary target op a =>
      rw [Instr.execute, Instr.mark, ← map_value_get]
      refine map_bind fun x hx => ?_
      have hinline := propext (isInline_apply op x)
      show Except.ok (r.set target (op.apply x)).inline = _
      rw [inline_set, hinline, value_apply, inline_of_get hx]
      rfl
  | binary target op a b =>
      rw [Instr.execute, Instr.mark, ← map_value_get, ← map_value_operand]
      refine map_bind fun x hx => map_bind fun y hy => ?_
      -- the values decide whether there is a result, and the law its storage
      rw [← map_value_apply, inline_of_get hx, mark_of_get hy]
      cases hz : op.apply x y with
      | error fault => rfl
      | ok z =>
          have hinline := propext (isInline_of_apply hz)
          show Except.ok (r.set target z).inline = _
          rw [inline_set, hinline]
          rfl
  | promote a =>
      rw [Instr.execute, Instr.mark, ← map_value_get]
      refine map_bind fun x _ => ?_
      show Except.ok (r.set a x.promote).inline = _
      rw [inline_set, isInline_promote, Bool.false_eq_true]
      rfl
  | isPrime a =>
      rw [Instr.execute, Instr.mark, ← map_value_get]
      exact map_bind fun x _ => rfl
  | compare a b =>
      rw [Instr.execute, Instr.mark, ← map_value_get, ← map_value_get]
      exact map_bind fun x _ => map_bind fun y _ => rfl
  | observe a =>
      rw [Instr.execute, Instr.mark, ← map_value_get]
      exact map_bind fun x _ => rfl

theorem values_after {answer : Answer} (h : i.execute r = .ok (answer, r')) :
    r'.values = i.after r.values := by
  have hforget := forget_execute r i
  rw [h] at hforget
  rw [Instr.after, ← hforget]
  rfl

theorem values_of_failure {failure : Failure}
    (h : i.execute r = .error failure) : i.after r.values = r.values := by
  have hforget := forget_execute r i
  rw [h] at hforget
  rw [Instr.after, ← hforget]
  rfl

/-- The law of storage, for a program. -/
theorem inline_run (r : Registers) (p : List Instr) :
    (run r p).2.inline = carry .inline r.values r.inline p := by
  induction p generalizing r with
  | nil => rfl
  | cons i rest ih =>
      have hstep := inline_execute r i
      rw [run, carry, ← hstep]
      cases h : i.execute r with
      | error failure =>
          simp only [Except.map, values_of_failure h, ← ih]
      | ok x =>
          obtain ⟨answer, r'⟩ := x
          simp only [Except.map, ← values_after h, ← ih]

/-! ## What is computed from large integers -/

/-- The integers that were computed from marked ones or promoted. A search for a
prime that begins at two or below forgets what it began with. -/
def Rule.descent : Rule where
  load _ := False
  word := False
  unary op n _ marked := marked ∧ ¬ (op = .nextPrime ∧ n ≤ 2)
  binary _ _ _ _ marked marked' := marked ∨ marked'
  promote := True

/-- Where the properties of two rules exclude each other in the operands, they do
so in the result. -/
structure Rule.Excludes (R S : Rule) : Prop where
  load : ∀ n, ¬ (R.load n ∧ S.load n)
  word : ¬ (R.word ∧ S.word)
  unary : ∀ {op n result P Q}, ¬ (P ∧ Q) →
    ¬ (R.unary op n result P ∧ S.unary op n result Q)
  binary : ∀ {op m n result P P' Q Q'}, ¬ (P ∧ Q) → ¬ (P' ∧ Q') →
    ¬ (R.binary op m n result P P' ∧ S.binary op m n result Q Q')
  promote : ¬ (R.promote ∧ S.promote)

theorem descent_excludes_inline : Rule.descent.Excludes .inline where
  load n := by simp [Rule.descent]
  word := by simp [Rule.descent]
  unary := by
    intro op n result P Q h
    cases op <;> simp [Rule.descent, Rule.inline, UnaryOp.KeepsInline] <;> tauto
  binary := by
    intro op m n result P P' Q Q' h h'
    simp only [Rule.descent, Rule.inline, BinaryOp.KeepsInline]
    tauto
  promote := by simp [Rule.inline]

variable {R S : Rule}

/-- No register has both properties. -/
def Marks.Apart (l l' : Marks) : Prop := ∀ name, ¬ (l name ∧ l' name)

theorem Marks.Apart.set (h : l.Apart l') {P Q : Prop} (hnew : ¬ (P ∧ Q)) :
    (l.set name P).Apart (l'.set name Q) := by
  intro other
  simp only [Marks.set]
  split
  · exact hnew
  · exact h other

theorem Rule.Excludes.operand (h : R.Excludes S) (hl : l.Apart l')
    (b : Operand) : ¬ (b.mark R l ∧ b.mark S l') := by
  cases b with
  | register name => exact hl name
  | word w => exact h.word

/-- An instruction fails for both rules, or it leaves their marks apart. -/
inductive Alike : Except Failure Marks → Except Failure Marks → Prop
  | ok {k k' : Marks} (apart : k.Apart k') : Alike (.ok k) (.ok k')
  | error (failure : Failure) : Alike (.error failure) (.error failure)

theorem alike_bind {α : Type} {x : Except Failure α}
    {f g : α → Except Failure Marks} (h : ∀ a, Alike (f a) (g a)) :
    Alike (x >>= f) (x >>= g) := by
  cases x with
  | error failure => exact .error failure
  | ok a => exact h a

theorem Rule.Excludes.mark (h : R.Excludes S) (hl : l.Apart l') (v : Values)
    (i : Instr) : Alike (i.mark R v l) (i.mark S v l') := by
  cases i with
  | load target origin =>
      exact alike_bind fun n => .ok (hl.set (h.load n))
  | unary target op a =>
      exact alike_bind fun n => .ok (hl.set (h.unary (hl a)))
  | binary target op a b =>
      have hb := h.operand hl b
      exact alike_bind fun m => alike_bind fun n => alike_bind fun result =>
        .ok (hl.set (h.binary (hl a) hb))
  | promote a => exact alike_bind fun n => .ok (hl.set h.promote)
  | isPrime a => exact alike_bind fun n => .ok hl
  | compare a b => exact alike_bind fun m => alike_bind fun n => .ok hl
  | observe a => exact alike_bind fun n => .ok hl

theorem Rule.Excludes.carry (h : R.Excludes S) (hl : l.Apart l') (v : Values)
    (p : List Instr) : (carry R v l p).Apart (carry S v l' p) := by
  induction p generalizing v l l' with
  | nil => exact hl
  | cons i rest ih =>
      have hstep := h.mark hl v i
      rw [Program.carry, Program.carry]
      generalize i.mark R v l = x at hstep ⊢
      generalize i.mark S v l' = y at hstep ⊢
      cases hstep with
      | ok apart => exact ih apart _
      | error failure => exact ih hl _

/-- What was computed from large integers is large. -/
theorem isInline_of_descent (h : ∀ name a, l name → r name = some a →
      a.isInline = false)
    (p : List Instr) (hname : carry .descent r.values l p name)
    (ha : (run r p).2 name = some a) : a.isInline = false := by
  have hapart : l.Apart r.inline := by
    intro other ⟨hl, b, hb, hinline⟩
    rw [h other b hl hb] at hinline
    cases hinline
  have hend := descent_excludes_inline.carry hapart r.values p name
  rw [← inline_run] at hend
  exact Bool.eq_false_iff.2 fun hinline => hend ⟨hname, a, ha, hinline⟩

/-- The storage of an integer is decided when it is made. A fresh integer is
inline if a word holds it, and a result is inline if its operands are and a word
holds it, but for the remainder of the least word by minus one. The next prime of
a number up to two is inline in any case, and a promoted integer in none. This
tells the inline registers at the end of every program from those at its start.
And what was computed from large integers, or from promoted ones, is large. -/
theorem storage_law :
    (∀ n, (ofInt n).isInline = true ↔ WordSize.w64.Holds n) ∧
    (∀ (origin : Origin) a, origin.load = .ok a →
      (a.isInline = true ↔ WordSize.w64.Holds a.value)) ∧
    (∀ (op : UnaryOp) a, (op.apply a).isInline = true ↔
      op.KeepsInline a.value (op.apply a).value (a.isInline = true)) ∧
    (∀ (op : BinaryOp) a b c, op.apply a b = .ok c →
      (c.isInline = true ↔
        op.KeepsInline a.value b.value c.value (a.isInline = true)
          (b.isInline = true))) ∧
    (∀ a : Integer, a.promote.isInline = false) ∧
    (∀ r p, (run r p).2.inline = carry .inline r.values r.inline p) ∧
    ∀ (r : Registers) (l : Marks),
      (∀ name a, l name → r name = some a → a.isInline = false) →
      ∀ p name a, carry .descent r.values l p name →
        (run r p).2 name = some a → a.isInline = false :=
  ⟨isInline_ofInt, fun _ _ => isInline_of_load, isInline_apply,
    fun _ _ _ _ => isInline_of_apply, isInline_promote, inline_run,
    fun _ _ h p _ _ => isInline_of_descent h p⟩

/-- A program that computes a square from zero. -/
def squareSuccessor : List Instr :=
  [.binary "one" .add "zero" (.word 1), .unary "square" (.pow 2) "one"]

/-- The least word is a power of an inline integer, and its remainder by minus
one is a large zero. What is computed from a large zero is large, until a prime is
searched for. -/
theorem storage_law_large_zero :
    ((inline (-2)).pow 63).isInline = true ∧
    (inline Int64.minValue).mod (inline (-1)) = .ok (large 0) ∧
    (∃ a, (run (Registers.empty.set "zero" (large 0)) squareSuccessor).2
        "square" = some a ∧ a.value = 1 ∧ a.isInline = false) ∧
    (large 1).nextPrime.isInline = true := by
  obtain ⟨_, _, hunary, _, _, _, hdescent⟩ := storage_law
  have hsquare : (run (Registers.empty.set "zero" (large 0))
      squareSuccessor).2 "square" = some (large 1) := by decide +kernel
  have hzero : ∀ name a, name = "zero" →
      Registers.empty.set "zero" (large 0) name = some a →
      a.isInline = false := by
    intro name a hname ha
    subst hname
    cases ha
    rfl
  refine ⟨?_, by decide, ⟨large 1, hsquare, rfl, ?_⟩, ?_⟩
  · refine (hunary (.pow 63) (inline (-2))).2 ⟨rfl, ?_⟩
    rw [UnaryOp.apply, value_pow]
    decide
  · refine hdescent _ (fun name => name = "zero") hzero squareSuccessor
      "square" _ ?_ hsquare
    show ("zero" = "zero" ∨ False) ∧
      ¬ (UnaryOp.pow 2 = .nextPrime ∧ (1 : Int) ≤ 2)
    simp
  · exact (hunary .nextPrime (large 1)).2 (Or.inl (by decide))

end KroneckerCode.Integer.Program

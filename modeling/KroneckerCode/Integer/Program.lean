import KroneckerCode.Integer.Numeral
import KroneckerCode.Integer.Prime

/-!
# Programs of integer operations

A program is a list of instructions over named registers that hold integers.
Each instruction gives one answer. One that fails changes no register, and the
program goes on with the next.

The answer to an instruction that computes an integer is the integer with its
storage. What can be asked of an integer besides that is collected in an
`Observation`, so that "equal values cannot be told apart" is one equation.
-/

namespace KroneckerCode.Integer

/-- All that can be asked of one integer, its storage apart. -/
structure Observation where
  text : String
  debugText : String
  sign : Int
  isNegative : Bool
  isPositive : Bool
  isZero : Bool
  isOne : Bool
  isEven : Bool
  bitLength : Nat
  int64 : Option Int
  int128 : Option Int
  value : Int
deriving DecidableEq

/-- Asks everything. -/
def observe (a : Integer) : Observation where
  text := toString a
  debugText := a.debugText
  sign := a.sign
  isNegative := a.isNegative
  isPositive := a.isPositive
  isZero := a.isZero
  isOne := a.isOne
  isEven := a.isEven
  bitLength := a.bitLength
  int64 := a.toInt64?
  int128 := a.toInt128?
  value := a.value

/-- What can be asked of two integers. -/
structure Comparison where
  order : Ordering
  sameHash : Bool
deriving DecidableEq

/-- Whether the two are equal. -/
def Comparison.isEqual (c : Comparison) : Bool := c.order == .eq

/-- Asks everything about two integers. -/
def compareWith (a b : Integer) : Comparison where
  order := a.compare b
  sameHash := a.hashKey == b.hashKey

namespace Program

/-- Where a fresh integer comes from. -/
inductive Origin where
  /-- A 64-bit word. -/
  | word (w : Int64)
  /-- A value of a machine type. -/
  | machine (type : IntType) (x : Ranged type)
  /-- An integer without bounds. -/
  | unbounded (n : Int)
  /-- A numeral, in a radix. -/
  | numeral (text : String) (radix : Nat)
  /-- The constant zero. -/
  | zero
  /-- The constant one. -/
  | one

/-- An operation on one register. -/
inductive UnaryOp where
  | copy | abs | neg | nextPrime
  | pow (exp : Nat)
deriving DecidableEq, Repr

/-- An operation on a register and a second operand. -/
inductive BinaryOp where
  | add | sub | mul | div | mod
deriving DecidableEq, Repr

/-- The right operand of an operation: a register, or a word, which counts as inline. -/
inductive Operand where
  | register (name : String)
  | word (w : Int64)

/--
An instruction. The first three put an integer into the register `target`, and
`promote` leaves its result where it was; the others only ask.
-/
inductive Instr where
  | load (target : String) (origin : Origin)
  | unary (target : String) (op : UnaryOp) (a : String)
  | binary (target : String) (op : BinaryOp) (a : String) (b : Operand)
  | promote (a : String)
  | isPrime (a : String)
  | compare (a b : String)
  | observe (a : String)

/-- Why an instruction has no answer. -/
inductive Failure where
  | fault (fault : Fault)
  | numeral (error : NumeralError)
  | unset (register : String)
deriving DecidableEq, Repr

/-- What an instruction answers. -/
inductive Answer where
  | integer (a : Integer)
  | isPrime (answer : Bool)
  | comparison (c : Comparison)
  | observation (o : Observation) (isInline : Bool)
deriving DecidableEq

/-- The registers that have been set, with their integers. -/
def Registers := String → Option Integer

/-- No register has been set. -/
def Registers.empty : Registers := fun _ => none

/-- Puts an integer into a register. -/
def Registers.set (r : Registers) (name : String) (a : Integer) : Registers :=
  fun other => if other = name then some a else r other

/-- Looks up a register. -/
def Registers.get (r : Registers) (name : String) : Except Failure Integer :=
  match r name with
  | some a => .ok a
  | none => .error (.unset name)

/-- Makes the fresh integer. -/
def Origin.load : Origin → Except Failure Integer
  | word w => .ok (inline w)
  | machine _ x => .ok (ofRanged x)
  | unbounded n => .ok (ofInt n)
  | numeral text radix => (ofNumeral text radix).mapError .numeral
  | zero => .ok (inline 0)
  | one => .ok (inline 1)

/-- Carries out the operation. -/
def UnaryOp.apply (a : Integer) : UnaryOp → Integer
  | copy => a
  | abs => a.abs
  | neg => -a
  | nextPrime => a.nextPrime
  | pow exp => a.pow exp

/-- Carries out the operation. -/
def BinaryOp.apply (a b : Integer) : BinaryOp → Except Fault Integer
  | add => .ok (a + b)
  | sub => .ok (a - b)
  | mul => .ok (a * b)
  | div => a.div b
  | mod => a.mod b

/-- Looks up the operand. -/
def Operand.get (r : Registers) : Operand → Except Failure Integer
  | register name => r.get name
  | word w => .ok (inline w)

/-- Carries out one instruction. -/
def Instr.execute (r : Registers) : Instr → Except Failure (Answer × Registers)
  | load target origin => do
    let a ← origin.load
    return (.integer a, r.set target a)
  | unary target op a => do
    let result := op.apply (← r.get a)
    return (.integer result, r.set target result)
  | binary target op a b => do
    let left ← r.get a
    let right ← b.get r
    let result ← (op.apply left right).mapError .fault
    return (.integer result, r.set target result)
  | promote a => do
    let result := (← r.get a).promote
    return (.integer result, r.set a result)
  | isPrime a => do
    return (.isPrime (← r.get a).isPrime, r)
  | compare a b => do
    let left ← r.get a
    let right ← r.get b
    return (.comparison (left.compareWith right), r)
  | observe a => do
    let x ← r.get a
    return (.observation x.observe x.isInline, r)

/-- The answers to a list of instructions, and the registers at the end. -/
def run (r : Registers) : List Instr → List (Except Failure Answer) × Registers
  | [] => ([], r)
  | i :: rest =>
    match i.execute r with
    | .ok (answer, r') =>
      let (answers, last) := run r' rest
      (.ok answer :: answers, last)
    | .error failure =>
      let (answers, last) := run r rest
      (.error failure :: answers, last)

end Program

end KroneckerCode.Integer

/-
  ARITHMETIC — exact integers and the ranges they must fit.

  Numbers of the four small types are computed as integers of 64 bits and then brought to their
  type; numbers of the large type are computed with 256 bits.  A result outside its range is an
  overflow.  Division truncates toward zero and the remainder has the sign of the dividend; where
  the quotient overflows, so does the remainder.
-/
import Covenant.Reduction.Error
import Covenant.Script.Value

namespace Covenant

/-- A result in the signed range of so many bits. -/
def checkBits (bits : Nat) (n : Int) : Except ReductionError Int :=
  if fitsBits bits n then .ok n else .error (.evaluationFailed .overflow)

/-- Two numbers of one type. -/
inductive Operands
  | small (t : ValueType) (x y : Int)
  | big (x y : Int)

/-- Two values as numbers of one type. -/
def Operands.ofValues (x y : Value) : Except ReductionError Operands :=
  if x.type ≠ y.type then .error (.malformedCondition .operandTypes)
  else
    match x, y with
    | .bigInt a, .bigInt b => .ok (.big a.toInt b.toInt)
    | x, y =>
      match x.toInt?, y.toInt? with
      | some a, some b => .ok (.small x.type a b)
      | _, _ => .error (.malformedCondition .notNumbers)

/-- An operation on integers of so many bits. -/
def ArithOp.compute (bits : Nat) (x y : Int) : ArithOp → Except ReductionError Int
  | .plus => checkBits bits (x + y)
  | .minus => checkBits bits (x - y)
  | .multiply => checkBits bits (x * y)
  | .division =>
    if y = 0 then .error (.evaluationFailed .divisionByZero) else checkBits bits (x.tdiv y)
  | .modulo =>
    if y = 0 then .error (.evaluationFailed .divisionByZero)
    else do
      -- the remainder by -1 is zero, yet it is refused where the quotient has no room
      let _ ← checkBits bits (x.tdiv y)
      return x.tmod y
  | .min => .ok (Min.min x y)
  | .max => .ok (Max.max x y)

/-- An integer as a value of a small numeric type. -/
def narrow (t : ValueType) (n : Int) : Except ReductionError Value :=
  match Value.ofInt? t n with
  | none => .error (.evaluationFailed .overflow)
  | some v => .ok v

/-- An operation on two numbers of one type. -/
def ArithOp.apply (op : ArithOp) : Operands → Except ReductionError Value
  | .small t x y => do narrow t (← op.compute 64 x y)
  | .big x y => do
    let n ← op.compute 256 x y
    return .bigInt (BitVec.ofInt 256 n)

/-- The opposite of a number. -/
def negate (v : Value) : Except ReductionError Value :=
  match v with
  | .bigInt x => do
    let n ← checkBits 256 (-x.toInt)
    return .bigInt (BitVec.ofInt 256 n)
  | v =>
    match v.toInt? with
    | none => .error (.malformedCondition .notANumber)
    | some n => do narrow v.type (← checkBits 64 (-n))

/-- A number as one of 256 bits. -/
def toBigInt (v : Value) : Except ReductionError Value :=
  match v with
  | .bigInt x => .ok (.bigInt x)
  | v =>
    match v.toInt? with
    | none => .error (.malformedCondition .notANumber)
    | some n => .ok (.bigInt (BitVec.ofInt 256 n))

/-- Compares two integers. -/
def CompareOp.holds (x y : Int) : CompareOp → Bool
  | .lt => x < y
  | .le => x ≤ y
  | .gt => y < x
  | .ge => y ≤ x
  | .eq => x == y
  | .neq => x != y

/-- Compares two numbers of one type. -/
def CompareOp.onOperands (op : CompareOp) : Operands → Bool
  | .small _ x y => op.holds x y
  | .big x y => op.holds x y

/-- Whether two values of one type are the same. -/
def sameValues (x y : Value) : Except ReductionError Bool :=
  if x.type ≠ y.type then .error (.malformedCondition .operandTypes) else .ok (x == y)

/-- Compares two values: any of one type for equality, numbers for order. -/
def CompareOp.apply (op : CompareOp) (x y : Value) : Except ReductionError Value :=
  match op with
  | .eq => do return .bool (← sameValues x y)
  | .neq => do return .bool !(← sameValues x y)
  | op => do return .bool (op.onOperands (← Operands.ofValues x y))

/-- A natural number as a value of type `Int`. -/
def intOf (n : Nat) : Except ReductionError Value :=
  if n < 0x80000000 then .ok (.int (Int32.ofNat n)) else .error (.evaluationFailed .notAnIntValue)

/-- A natural number as a value of type `Long`. -/
def longOf (n : Nat) : Except ReductionError Value :=
  if n < 0x8000000000000000 then .ok (.long (Int64.ofNat n))
  else .error (.evaluationFailed .notALongValue)

/-- An index brought into the range from zero to `n`. -/
def clamp (i : Int32) (n : Nat) : Nat := min i.toInt.toNat n

end Covenant

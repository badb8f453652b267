/-
  INTEGERS — what arithmetic computes, and when it fails.

  Numbers of the four small types are widened to 64 bits, computed there, and brought back to their
  type; numbers of 256 bits are computed in their own width.  The rule that every type should follow
  is `NumericType.expected`: no quotient by zero, and otherwise the exact result where the type has
  it.

  1. **Numbers of a type** — a value of a numeric type stands for one integer in its range, and each
     integer in the range for one value (`type_eq_iff`, `integer_value`).
  2. **Two checks are one** — a result checked against the wider range and then brought to its type
     is the exact one where it fits the type and an overflow elsewhere (`checkBits_store`): the
     wider range contains the narrower one, so the detour through 64 bits never shows.
  3. **Remainders** — are the exception.  They are checked by their quotient, which leaves the range
     for one pair of operands, the least number and minus one (`fitsBits_tdiv`), where the remainder
     is zero.  The least number of the computation's width is an operand of the types `Long` and
     `BigInt` only (`apply_operands`).
  4. **`arithmetic_exact`** — so every type follows the rule, except that the remainder of the least
     `Long` or `BigInt` by minus one is an overflow.
-/
import Covenant.Proofs.Reduction.Metered
import Covenant.Proofs.Reduction.Limit
import Mathlib.Tactic.Common

namespace Covenant

/-! ## Ranges -/

theorem fitsBits_iff {bits : Nat} {n : Int} :
    fitsBits bits n = true ↔ -halfRange bits ≤ n ∧ n < halfRange bits := by
  simp [fitsBits]

theorem halfRange_pos (bits : Nat) : 0 < halfRange bits :=
  Int.natCast_pos.2 (Nat.pow_pos (by decide))

/-- A wider range contains a narrower one. -/
theorem fitsBits_mono {bits bits' : Nat} (hle : bits ≤ bits') {n : Int}
    (h : fitsBits bits n = true) : fitsBits bits' n = true := by
  have hhalf : halfRange bits ≤ halfRange bits' :=
    Int.ofNat_le.2 (Nat.pow_le_pow_right (by decide) (by omega))
  rw [fitsBits_iff] at h ⊢
  omega

/-- A quotient leaves the range for one pair of operands only. -/
theorem fitsBits_tdiv {bits : Nat} {x y : Int} (hx : fitsBits bits x = true) :
    fitsBits bits (x.tdiv y) = true ↔ ¬(x = -halfRange bits ∧ y = -1) := by
  have hpos := halfRange_pos bits
  rw [fitsBits_iff] at hx ⊢
  have habs := Int.natAbs_tdiv_le_natAbs x y
  by_cases hminus : y = -1
  · have hneg : x.tdiv y = -x := by rw [hminus, Int.tdiv_neg, Int.tdiv_one]
    rw [hneg]
    omega
  · refine iff_of_true ⟨by omega, ?_⟩ fun h => hminus h.2
    -- the quotient is no larger than the dividend: only its sign could take it out of the range
    rcases Int.lt_or_le y 0 with hy | hy
    · have hhalf : (x.tdiv y).natAbs ≤ x.natAbs / 2 := by
        rw [Int.natAbs_tdiv]
        exact Nat.div_le_div_left (by omega) (by decide)
      omega
    · rcases Int.le_total 0 x with hx0 | hx0
      · omega
      · have hquot : 0 ≤ (-x).tdiv y := Int.tdiv_nonneg (Int.neg_nonneg_of_nonpos hx0) hy
        rw [Int.neg_tdiv] at hquot
        omega

/-- A remainder lies between zero and the dividend. -/
theorem fitsBits_tmod {bits : Nat} {x : Int} (hx : fitsBits bits x = true) (y : Int) :
    fitsBits bits (x.tmod y) = true := by
  have hpos := halfRange_pos bits
  -- a remainder has the sign of the dividend and is no larger, even by the least integer's measure
  have habs : (x.tmod y).natAbs ≤ x.natAbs := by
    rw [Int.natAbs_tmod]
    exact Nat.mod_le _ _
  rw [fitsBits_iff] at hx ⊢
  rcases Int.le_total 0 x with hx0 | hx0
  · have hrem := Int.tmod_nonneg y hx0
    omega
  · have hrem := Int.tmod_nonneg y (Int.neg_nonneg_of_nonpos hx0)
    rw [Int.neg_tmod] at hrem
    omega

/-! ## Numbers of a type -/

/-- The number that a numeric value stands for; zero for other values. -/
def Value.integer : Value → Int
  | .byte x => x.toInt
  | .short x => x.toInt
  | .int x => x.toInt
  | .long x => x.toInt
  | .bigInt x => x.toInt
  | _ => 0

/-- The types of numbers. -/
inductive NumericType
  | byte | short | int | long | bigInt
deriving DecidableEq

namespace NumericType

/-- The type as an atom of the condition language. -/
def atom : NumericType → AtomType
  | byte => .byte
  | short => .short
  | int => .int
  | long => .long
  | bigInt => .bigInt

/-- The type as a type of values. -/
def type (T : NumericType) : ValueType := .atom T.atom

/-- Number of bits. -/
def bits : NumericType → Nat
  | byte => 8
  | short => 16
  | int => 32
  | long => 64
  | bigInt => 256

/-- Number of bits in which the type's numbers are computed. -/
def width : NumericType → Nat
  | bigInt => 256
  | _ => 64

/-- The value of the type that stands for an integer in its range. -/
def value (n : Int) : NumericType → Value
  | byte => .byte (Int8.ofInt n)
  | short => .short (Int16.ofInt n)
  | int => .int (Int32.ofInt n)
  | long => .long (Int64.ofInt n)
  | bigInt => .bigInt (BitVec.ofInt 256 n)

/-- The least number of the type. -/
def least (T : NumericType) : Int := -halfRange T.bits

/-- A number as a value of the type, or an overflow where the type does not have it. -/
def fit (T : NumericType) (n : Int) : Except ReductionError Value :=
  if fitsBits T.bits n then .ok (T.value n) else .error (.evaluationFailed .overflow)

theorem bits_le_width (T : NumericType) : T.bits ≤ T.width := by
  cases T <;> decide

@[simp] theorem type_value (T : NumericType) (n : Int) : (T.value n).type = T.type := by
  cases T <;> rfl

/-- The value of a number stands for it. -/
theorem integer_value {T : NumericType} {n : Int} (h : fitsBits T.bits n = true) :
    (T.value n).integer = n := by
  rw [fitsBits_iff] at h
  cases T with
  | byte => exact Int8.toInt_ofInt_of_le h.1 h.2
  | short => exact Int16.toInt_ofInt_of_le h.1 h.2
  | int => exact Int32.toInt_ofInt_of_le h.1 h.2
  | long => exact Int64.toInt_ofInt_of_le h.1 h.2
  | bigInt =>
    show (BitVec.ofInt 256 n).toInt = n
    rw [BitVec.toInt_ofInt]
    exact Int.bmod_eq_of_le h.1 h.2

/-- A value of an atomic type other than that of boxes is an atom. -/
theorem exists_atom {v : Value} {a : AtomType} (hbox : a ≠ .box) (h : v.type = .atom a) :
    ∃ x : Atom, v = .atom x ∧ x.type = a := by
  cases v with
  | atom x => exact ⟨x, rfl, ValueType.atom.inj h⟩
  | box b => exact absurd (ValueType.atom.inj h).symm hbox
  | bytes | seq | tuple | option => cases h

/-- Every value of the type stands for a number in its range. -/
theorem exists_number {T : NumericType} {v : Value} (h : v.type = T.type) :
    ∃ n, fitsBits T.bits n = true ∧ v = T.value n := by
  obtain ⟨x, rfl, hx⟩ := exists_atom (a := T.atom) (by cases T <;> decide) h
  refine ⟨(Value.atom x).integer, ?_⟩
  cases T <;> cases x <;> cases hx <;> rename_i x <;>
    exact ⟨fitsBits_iff.2 ⟨x.le_toInt, x.toInt_lt⟩, by simp [value, Value.integer]⟩

/-- **The values of a numeric type** are the numbers in its range. -/
theorem type_eq_iff {T : NumericType} {v : Value} :
    v.type = T.type ↔ ∃ n, fitsBits T.bits n = true ∧ v = T.value n := by
  constructor
  · exact exists_number
  · rintro ⟨n, -, rfl⟩
    exact type_value T n

/-! ## Two checks are one -/

/-- Brings a computed number to its type. -/
def store (T : NumericType) (n : Int) : Except ReductionError Value :=
  match T with
  | bigInt => .ok (.bigInt (BitVec.ofInt 256 n))
  | T => narrow T.type n

/-- The small types have the values of the numbers in their range. -/
theorem narrow_eq_fit {T : NumericType} (hT : T ≠ bigInt) (n : Int) :
    narrow T.type n = T.fit n := by
  have hvalue : Value.ofInt? T.type n = if fitsBits T.bits n then some (T.value n) else none := by
    cases T with
    | bigInt => exact absurd rfl hT
    | byte | short | int | long => rfl
  by_cases hfits : fitsBits T.bits n = true
  · rw [narrow, hvalue, fit, if_pos hfits, if_pos hfits]
  · rw [narrow, hvalue, fit, if_neg hfits, if_neg hfits]

/-- A number in the range of the computation is stored exactly where it fits. -/
theorem store_eq_fit {T : NumericType} {n : Int} (h : fitsBits T.width n = true) :
    T.store n = T.fit n := by
  cases T with
  | bigInt => exact (if_pos h).symm
  | byte | short | int | long => exact narrow_eq_fit (by decide) n

/-- **Two checks are one**: checked against the range of the computation and then against that of
its type, a number has been checked against the latter. -/
theorem checkBits_store (T : NumericType) (n : Int) :
    (checkBits T.width n >>= T.store) = T.fit n := by
  by_cases hwide : fitsBits T.width n = true
  · rw [checkBits, if_pos hwide]
    exact store_eq_fit hwide
  · have hnarrow : ¬fitsBits T.bits n = true := fun h =>
      hwide (fitsBits_mono T.bits_le_width h)
    rw [checkBits, if_neg hwide, fit, if_neg hnarrow]
    rfl

end NumericType

/-! ## Operations -/

namespace ArithOp

/-- The operation on integers; a quotient is truncated toward zero, and a remainder has the sign of
the dividend. -/
def exact (x y : Int) : ArithOp → Int
  | .plus => x + y
  | .minus => x - y
  | .multiply => x * y
  | .division => x.tdiv y
  | .modulo => x.tmod y
  | .min => Min.min x y
  | .max => Max.max x y

/-- The operations that divide. -/
def Divides (op : ArithOp) : Prop := op = .division ∨ op = .modulo

instance (op : ArithOp) : Decidable op.Divides :=
  inferInstanceAs (Decidable (op = .division ∨ op = .modulo))

/-- **What is computed** from two numbers of so many bits: the exact result where it fits, except
that a remainder is refused where the quotient does not fit. -/
theorem compute_eq (op : ArithOp) {bits : Nat} {x y : Int} (hx : fitsBits bits x = true)
    (hy : fitsBits bits y = true) : op.compute bits x y =
      if op.Divides ∧ y = 0 then .error (.evaluationFailed .divisionByZero)
      else if op = .modulo ∧ x = -halfRange bits ∧ y = -1 then .error (.evaluationFailed .overflow)
      else checkBits bits (op.exact x y) := by
  cases op with
  | plus | minus | multiply => simp [compute, Divides, exact]
  | min =>
    have hmin : fitsBits bits (Min.min x y) = true := by
      rcases Int.le_total x y with h | h
      · rwa [Int.min_eq_left h]
      · rwa [Int.min_eq_right h]
    simp [compute, Divides, exact, checkBits, hmin]
  | max =>
    have hmax : fitsBits bits (Max.max x y) = true := by
      rcases Int.le_total x y with h | h
      · rwa [Int.max_eq_right h]
      · rwa [Int.max_eq_left h]
    simp [compute, Divides, exact, checkBits, hmax]
  | division =>
    by_cases hzero : y = 0
    · simp [compute, Divides, hzero]
    · simp [compute, Divides, exact, hzero]
  | modulo =>
    by_cases hzero : y = 0
    · simp [compute, Divides, hzero]
    · have hdivisor : ¬(modulo.Divides ∧ y = 0) := fun h => hzero h.2
      rw [compute, if_neg hzero, if_neg hdivisor]
      -- the program checks the quotient before it takes the remainder; it fails to fit only here
      by_cases hquot : x = -halfRange bits ∧ y = -1
      · have hover : ¬fitsBits bits (x.tdiv y) = true := fun h => (fitsBits_tdiv hx).1 h hquot
        rw [if_pos ⟨rfl, hquot⟩, checkBits, if_neg hover]
        rfl
      · have hfits : fitsBits bits (x.tdiv y) = true := (fitsBits_tdiv hx).2 hquot
        have hrem : fitsBits bits (exact x y modulo) = true := fitsBits_tmod hx y
        rw [if_neg fun h => hquot h.2, checkBits, if_pos hfits, checkBits, if_pos hrem]
        rfl

end ArithOp

namespace NumericType

/-- Two numbers of the type as operands. -/
def operands (x y : Int) : NumericType → Operands
  | bigInt => .big x y
  | T => .small T.type x y

/-- The outcome that an operation on two numbers should have: no quotient by zero, and otherwise the
exact result where the type has it. -/
def expected (T : NumericType) (op : ArithOp) (x y : Int) : Except ReductionError Value :=
  if op.Divides ∧ y = 0 then .error (.evaluationFailed .divisionByZero) else T.fit (op.exact x y)

/-- The remainder of the least number by minus one, in a type as wide as its computation. -/
def Refused (T : NumericType) (op : ArithOp) (x y : Int) : Prop :=
  op = .modulo ∧ (T = .long ∨ T = .bigInt) ∧ x = T.least ∧ y = -1

instance (T : NumericType) (op : ArithOp) (x y : Int) : Decidable (T.Refused op x y) :=
  inferInstanceAs (Decidable (op = .modulo ∧ (T = .long ∨ T = .bigInt) ∧ x = T.least ∧ y = -1))

theorem apply_operands (T : NumericType) (op : ArithOp) (x y : Int) :
    op.apply (T.operands x y) = (op.compute T.width x y >>= T.store) := by
  cases T <;> rfl

/-- The least number of the computation's width is a number of the types `Long` and `BigInt`. -/
theorem eq_least_of_width {T : NumericType} {x : Int} (hx : fitsBits T.bits x = true) :
    x = -halfRange T.width ↔ (T = .long ∨ T = .bigInt) ∧ x = T.least := by
  rw [fitsBits_iff] at hx
  cases T with
  | long | bigInt => simp [least, width, bits]
  | byte | short | int =>
    refine iff_of_false (fun h => ?_) (by simp)
    rw [h] at hx
    exact absurd hx.1 (by decide)

/-- Operations follow the rule, but for the remainders that are refused. -/
theorem apply_eq {T : NumericType} (op : ArithOp) {x y : Int} (hx : fitsBits T.bits x = true)
    (hy : fitsBits T.bits y = true) : op.apply (T.operands x y) =
      if T.Refused op x y then .error (.evaluationFailed .overflow) else T.expected op x y := by
  rw [apply_operands, op.compute_eq (fitsBits_mono T.bits_le_width hx)
    (fitsBits_mono T.bits_le_width hy), expected]
  by_cases hzero : op.Divides ∧ y = 0
  · -- a divisor of zero is not a divisor of minus one
    have hallowed : ¬T.Refused op x y := by
      rintro ⟨-, -, -, hy⟩
      exact absurd (hzero.2.symm.trans hy) (by decide)
    rw [if_pos hzero, if_pos hzero, if_neg hallowed]
    rfl
  · rw [if_neg hzero, if_neg hzero]
    by_cases hrefused : T.Refused op x y
    · rw [if_pos hrefused]
      obtain ⟨hop, hT, hleast, hminus⟩ := hrefused
      rw [if_pos ⟨hop, (eq_least_of_width hx).2 ⟨hT, hleast⟩, hminus⟩]
      rfl
    · -- the narrow types are computed at a greater width, where their least integer is not the
      -- least
      have hallowed : ¬(op = .modulo ∧ x = -halfRange T.width ∧ y = -1) := by
        rintro ⟨hop, hleast, hminus⟩
        obtain ⟨hT, hleast⟩ := (eq_least_of_width hx).1 hleast
        exact hrefused ⟨hop, hT, hleast, hminus⟩
      rw [if_neg hrefused, if_neg hallowed, checkBits_store]

/-- Two values of one numeric type are operands of that type. -/
theorem ofValues_eq {T : NumericType} {x y : Int} (hx : fitsBits T.bits x = true)
    (hy : fitsBits T.bits y = true) :
    Operands.ofValues (T.value x) (T.value y) = .ok (T.operands x y) := by
  have hread : Operands.ofValues (T.value x) (T.value y) =
      .ok (T.operands (T.value x).integer (T.value y).integer) := by
    cases T <;> rfl
  rw [hread, integer_value hx, integer_value hy]

/-- The opposite of a number is the exact one where the type has it. -/
theorem negate_value {T : NumericType} {x : Int} (hx : fitsBits T.bits x = true) :
    negate (T.value x) = T.fit (-x) := by
  have hnegate : negate (T.value x) = (checkBits T.width (-(T.value x).integer) >>= T.store) := by
    cases T <;> rfl
  rw [hnegate, integer_value hx, checkBits_store]

/-- A number stays the same with 256 bits. -/
theorem toBigInt_value {T : NumericType} {x : Int} (hx : fitsBits T.bits x = true) :
    toBigInt (T.value x) = .ok (NumericType.bigInt.value x) := by
  cases T with
  | bigInt => rfl
  | byte | short | int | long =>
    exact congrArg (fun n => Except.ok (NumericType.bigInt.value n)) (integer_value hx)

end NumericType

/-! ## Evaluation -/

section

variable [Suite] (script : Scope → UInt8 → ValueType → EvalM Value) (sc : Scope) (m : Meter)

/-- A node stands within the depth limit, its price is paid, and its operands evaluate, one after
the other, to the given values. -/
def Entered (op : Opcode) (es : List Expr) (vs : List Value) : Prop :=
  sc.depth ≤ maxExprDepth ∧ ∃ paid m', m.add op.cost = .ok paid ∧
    (Expr.evalAll script es sc.deeper).run (paid.note (.node op)) = (.ok vs, m')

variable {script sc m}

omit [Suite] in
/-- A node that is within the depth limit and paid for has the result of its body. -/
theorem run_enter_fst {op : Opcode} {paid : Meter} (hdepth : sc.depth ≤ maxExprDepth)
    (hpaid : m.add op.cost = .ok paid) (node : Scope → EvalM Value) :
    ((enter sc op node).run m).1 = ((node sc.deeper).run (paid.note (.node op))).1 := by
  rw [run_enter_eq hdepth, hpaid]
  dsimp only
  rcases (node sc.deeper).run (paid.note (.node op)) with ⟨_ | v, m'⟩ <;> rfl

theorem run_evalAll_cons {e : Expr} {es : List Expr} {v : Value} {vs : List Value} {m' : Meter}
    (h : (Expr.evalAll script (e :: es) sc).run m = (.ok (v :: vs), m')) :
    ∃ m₁, (e.evalWith script sc).run m = (.ok v, m₁) ∧
      (Expr.evalAll script es sc).run m₁ = (.ok vs, m') := by
  obtain ⟨w, m₁, hw, hrest⟩ := EvalM.run_bind_eq_ok.1 h
  obtain ⟨ws, m₂, hws, hpure⟩ := EvalM.run_bind_eq_ok.1 hrest
  cases hpure
  exact ⟨m₁, hw, hws⟩

/-- An operation on one operand has the result of the operation on its value. -/
theorem run_unary {op : UnaryOp} {a : Expr} {v : Value} (h : Entered script sc m (.unary op) [a] [v])
    {r : Except ReductionError Value} (hr : op.apply v = EvalM.lift r) :
    (((Expr.unary op a).evalWith script sc).run m).1 = r := by
  obtain ⟨hdepth, paid, m', hpaid, hoperand⟩ := h
  obtain ⟨m₁, hv, -⟩ := run_evalAll_cons hoperand
  rw [Expr.evalWith, run_enter_fst hdepth hpaid, EvalM.run_bind_of_ok hv, hr, EvalM.run_lift]

/-- An arithmetic node has the result of the operation on the values of its operands. -/
theorem run_arith {op : ArithOp} {a b : Expr} {v w : Value}
    (h : Entered script sc m (.binary (.arith op)) [a, b] [v, w]) :
    (((Expr.binary (.arith op) a b).evalWith script sc).run m).1 =
      (Operands.ofValues v w >>= op.apply) := by
  obtain ⟨hdepth, paid, m', hpaid, hoperands⟩ := h
  obtain ⟨m₁, hv, hrest⟩ := run_evalAll_cons hoperands
  obtain ⟨m₂, hw, -⟩ := run_evalAll_cons hrest
  rw [Expr.evalWith, run_enter_fst hdepth hpaid, EvalM.run_bind_of_ok hv, EvalM.run_bind_of_ok hw,
    EvalM.run_lift]

variable (script sc m)

/-- **Arithmetic is exact.**  The values of a numeric type are the integers in its range.  An
arithmetic node on two of them, once paid for, fails with a division by zero exactly where it divides
and the divisor is zero; otherwise it yields the exact result where the type has it and an overflow
where not, and only the remainder of the least `Long` or `BigInt` by minus one is an overflow, too.
Opposites follow the rule without exception, and widening to `BigInt` keeps the number. -/
theorem arithmetic_exact (T : NumericType) :
    RuntimeFailure.divisionByZero.text = "division by zero" ∧
    RuntimeFailure.overflow.text = "arithmetic overflow" ∧
    (∀ v : Value, v.type = T.type ↔ ∃ n, fitsBits T.bits n ∧ v = T.value n) ∧
    (∀ n, fitsBits T.bits n → (T.value n).integer = n) ∧
    (∀ (op : ArithOp) (a b : Expr) (v w : Value),
      Entered script sc m (.binary (.arith op)) [a, b] [v, w] → v.type = T.type → w.type = T.type →
      (((Expr.binary (.arith op) a b).evalWith script sc).run m).1 =
        if T.Refused op v.integer w.integer then .error (.evaluationFailed .overflow)
        else T.expected op v.integer w.integer) ∧
    (∀ (a : Expr) (v : Value), Entered script sc m (.unary .negate) [a] [v] → v.type = T.type →
      (((Expr.unary .negate a).evalWith script sc).run m).1 = T.fit (-v.integer)) ∧
    ∀ (a : Expr) (v : Value), Entered script sc m (.unary .toBigInt) [a] [v] → v.type = T.type →
      ∃ u, (((Expr.unary .toBigInt a).evalWith script sc).run m).1 = .ok u ∧
        u.type = .bigInt ∧ u.integer = v.integer := by
  refine ⟨rfl, rfl, fun v => NumericType.type_eq_iff, fun n => NumericType.integer_value,
    ?_, ?_, ?_⟩
  · intro op a b v w h hv hw
    obtain ⟨x, hx, rfl⟩ := NumericType.exists_number hv
    obtain ⟨y, hy, rfl⟩ := NumericType.exists_number hw
    rw [run_arith h, NumericType.ofValues_eq hx hy, NumericType.integer_value hx,
      NumericType.integer_value hy]
    exact NumericType.apply_eq op hx hy
  · intro a v h hv
    obtain ⟨x, hx, rfl⟩ := NumericType.exists_number hv
    rw [run_unary h rfl, NumericType.negate_value hx, NumericType.integer_value hx]
  · intro a v h hv
    obtain ⟨x, hx, rfl⟩ := NumericType.exists_number hv
    -- every type fits into the widest
    have hwide : fitsBits NumericType.bigInt.bits x = true :=
      fitsBits_mono (by cases T <;> decide) hx
    refine ⟨NumericType.bigInt.value x, ?_, NumericType.type_value _ _, ?_⟩
    · rw [run_unary h rfl, NumericType.toBigInt_value hx]
    · rw [NumericType.integer_value hwide, NumericType.integer_value hx]

end

/-- Minus seven by two leaves minus one, in the type `Short`; the sum of a hundred and a hundred does
not fit the type `Byte`. -/
theorem arithmetic_exact_short :
    let sc : Scope := ⟨.blank, [], [], 0, 0⟩
    let script : Scope → UInt8 → ValueType → EvalM Value := runScript
    let remainder : Expr := .binary (.arith .modulo) (.const (.short (-7))) (.const (.short 2))
    let sum : Expr := .binary (.arith .plus) (.const (.byte 100)) (.const (.byte 100))
    Entered script sc (.new 100) (.binary (.arith .modulo)) [.const (.short (-7)), .const (.short 2)]
      [.short (-7), .short 2] ∧
    ((remainder.evalWith script sc).run (.new 100)).1 = .ok (.short (-1)) ∧
    ((sum.evalWith script sc).run (.new 100)).1 = .error (.evaluationFailed .overflow) := by
  intro sc script remainder sum
  have hremainder : Entered script sc (.new 100) (.binary (.arith .modulo))
      [.const (.short (-7)), .const (.short 2)] [.short (-7), .short 2] :=
    ⟨by decide, _, _, rfl, rfl⟩
  have hsum : Entered script sc (.new 100) (.binary (.arith .plus))
      [.const (.byte 100), .const (.byte 100)] [.byte 100, .byte 100] :=
    ⟨by decide, _, _, rfl, rfl⟩
  obtain ⟨-, -, -, -, hshort, -⟩ := arithmetic_exact script sc (.new 100) .short
  obtain ⟨-, -, -, -, hbyte, -⟩ := arithmetic_exact script sc (.new 100) .byte
  exact ⟨hremainder, (hshort _ _ _ _ _ hremainder rfl rfl).trans rfl,
    (hbyte _ _ _ _ _ hsum rfl rfl).trans rfl⟩

/-- Holds when the remainder of the type's least number by minus one is not negative. -/
def leastRemainder (T : NumericType) : Condition :=
  .new (.binary (.compare .ge)
    (.binary (.arith .modulo) (.const (T.value T.least)) (.const (T.value (-1))))
    (.const (T.value 0)))

/-- **One remainder is refused.**  The exact remainder is zero, a number of every type.  In the three
narrow types it is found, and in `Long` and `BigInt` it is an overflow. -/
theorem remainder_refused :
    (∀ T : NumericType, T.least.tmod (-1) = 0 ∧ fitsBits T.bits 0) ∧
    (∀ T ∈ [NumericType.byte, .short, .int],
      (leastRemainder T).reduce .blank 1000 = .ok ⟨.trivial true, 38⟩) ∧
    ∀ T ∈ [NumericType.long, .bigInt],
      (leastRemainder T).reduce .blank 1000 = .error (.evaluationFailed .overflow) := by
  refine ⟨fun T => ⟨?_, by cases T <;> decide⟩, by decide +kernel, by decide +kernel⟩
  rw [Int.tmod_neg, Int.tmod_one]

end Covenant

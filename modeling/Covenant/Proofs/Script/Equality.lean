/-
  EQUALITY — comparing values part by part decides whether they are the same.

  Values, expressions, conditions and boxes hold one another, so their comparisons are proved
  correct together: the crux is one induction along `Value.same` and its companions, in which the
  like-with-like cases are the parts' own equalities and a mismatch of constructors is an
  inequality.  What is built from them, extensions and transactions, follows field by field.
-/
import Covenant.Ledger.Envelope

namespace Covenant

/-- All comparisons of the family at once. -/
theorem same_iff_eq :
    (∀ a b : Value, a.same b = true ↔ a = b) ∧
    (∀ a b : Option Value, Value.sameOption a b = true ↔ a = b) ∧
    (∀ a b : List Value, Value.sameAll a b = true ↔ a = b) ∧
    (∀ a b : Box, a.same b = true ↔ a = b) ∧
    (∀ a b : Candidate, a.same b = true ↔ a = b) ∧
    (∀ a b : Condition, a.same b = true ↔ a = b) ∧
    (∀ a b : Expr, a.same b = true ↔ a = b) ∧
    (∀ a b : Option Expr, Expr.sameOption a b = true ↔ a = b) ∧
    (∀ a b : List Expr, Expr.sameAll a b = true ↔ a = b) ∧
    (∀ a b : List (UInt32 × Expr), Expr.sameDefs a b = true ↔ a = b) := by
  apply Value.same.mutual_induct
    (fun a b => a.same b = true ↔ a = b)
    (fun a b => Value.sameOption a b = true ↔ a = b)
    (fun a b => Value.sameAll a b = true ↔ a = b)
    (fun a b => a.same b = true ↔ a = b)
    (fun a b => a.same b = true ↔ a = b)
    (fun a b => a.same b = true ↔ a = b)
    (fun a b => a.same b = true ↔ a = b)
    (fun a b => Expr.sameOption a b = true ↔ a = b)
    (fun a b => Expr.sameAll a b = true ↔ a = b)
    (fun a b => Expr.sameDefs a b = true ↔ a = b)
  -- sides of different make: the comparison is false, and one value is not unlike itself
  case case7 | case10 | case13 | case18 | case38 | case41 | case44 | case47 =>
    intro x y
    intros
    simp only [Value.same, Value.sameAll, Value.sameOption, Condition.same, Expr.same, Expr.sameAll,
      Expr.sameOption, Expr.sameDefs, Bool.false_eq_true, false_iff, *]
    rintro rfl
    cases x <;> grind
  -- sides of one make: part by part
  all_goals
    intros
    simp only [Value.same, Value.sameAll, Value.sameOption, Box.same, Candidate.same,
      Condition.same, Expr.same, Expr.sameAll, Expr.sameOption, Expr.sameDefs, *,
      Bool.and_eq_true, beq_iff_eq]
  all_goals grind

/-- A comparison that decides equality. -/
theorem lawful_of_beq_iff {α : Type} [BEq α] (h : ∀ a b : α, (a == b) = true ↔ a = b) :
    LawfulBEq α where
  eq_of_beq := (h _ _).1
  rfl := (h _ _).2 rfl

instance : LawfulBEq Value := lawful_of_beq_iff same_iff_eq.1

instance : LawfulBEq Box := lawful_of_beq_iff same_iff_eq.2.2.2.1

instance : LawfulBEq Candidate := lawful_of_beq_iff same_iff_eq.2.2.2.2.1

instance : LawfulBEq Condition := lawful_of_beq_iff same_iff_eq.2.2.2.2.2.1

instance : LawfulBEq Expr := lawful_of_beq_iff same_iff_eq.2.2.2.2.2.2.1

instance : DecidableEq Value := instDecidableEqOfLawfulBEq

instance : DecidableEq Condition := instDecidableEqOfLawfulBEq

instance : DecidableEq Expr := instDecidableEqOfLawfulBEq

/-! ## Transactions -/

theorem Extension.sameEntries_iff (es fs : List (UInt8 × Value)) :
    sameEntries es fs = true ↔ es = fs := by
  induction es generalizing fs with
  | nil => cases fs <;> simp [sameEntries]
  | cons e es ih =>
    cases fs with
    | nil => simp [sameEntries]
    | cons f fs => simp [sameEntries, ih, Prod.ext_iff]

instance : LawfulBEq Extension := lawful_of_beq_iff fun x y => by
  cases x
  cases y
  exact (Extension.sameEntries_iff _ _).trans (by simp)

instance : LawfulBEq Input := lawful_of_beq_iff fun a b => by
  cases a
  cases b
  show (_ == _ && _ == _) = true ↔ _
  simp [Subtype.ext_iff]

instance : LawfulBEq UnsignedTx := lawful_of_beq_iff fun a b => by
  cases a
  cases b
  show (_ == _ && _ == _ && _ == _) = true ↔ _
  simp [and_assoc]

/-- The reduced inputs of a reduced transaction are those of its transaction. -/
theorem ReducedTx.extensions_eq (r : ReducedTx) :
    r.tx.inputs.map Input.extension = r.inputs.map ReducedInput.extension :=
  eq_of_beq r.fits

/-- There is one reduced input for each input. -/
theorem ReducedTx.length_inputs (r : ReducedTx) : r.inputs.length = r.tx.inputs.length := by
  simpa using (congrArg List.length r.extensions_eq).symm

/-- A transaction and its reduced inputs are put together exactly when they fit. -/
theorem ReducedTx.new_eq_ok {tx : UnsignedTx} {inputs : List ReducedInput} {totalCost : UInt64}
    {r : ReducedTx} : ReducedTx.new tx inputs totalCost = .ok r ↔
      r.tx = tx ∧ r.inputs = inputs ∧ r.totalCost = totalCost := by
  constructor
  · intro hnew
    unfold new at hnew
    split at hnew
    · cases hnew
    · split at hnew
      · cases hnew
        exact ⟨rfl, rfl, rfl⟩
      · cases hnew
  · rintro ⟨rfl, rfl, rfl⟩
    rw [new, if_neg fun h => h r.length_inputs.symm, dif_pos r.fits]

end Covenant

/-
  COMPUTED — the numbers and booleans that operations compute.

  Arithmetic, comparisons and counts return single atoms of the plain kinds, and nothing of their
  operands is left in them.  This is said here once, for each of these computations; whatever is
  true of plain atoms is then true of all they return.
-/
import Covenant.Proofs.Outcome
import Covenant.Reduction.Arithmetic

namespace Covenant

/-- A boolean or a number. -/
inductive Value.Computed : Value → Prop
  | bool (b : Bool) : Value.Computed (.bool b)
  | byte (x : Int8) : Value.Computed (.byte x)
  | short (x : Int16) : Value.Computed (.short x)
  | int (x : Int32) : Value.Computed (.int x)
  | long (x : Int64) : Value.Computed (.long x)
  | bigInt (x : BigInt) : Value.Computed (.bigInt x)

variable {v : Value}

theorem intOf_eq_ok {n : Nat} :
    intOf n = .ok v ↔ n < 0x80000000 ∧ .int (Int32.ofNat n) = v := by
  unfold intOf
  split <;> simp [*]

theorem longOf_eq_ok {n : Nat} :
    longOf n = .ok v ↔ n < 0x8000000000000000 ∧ .long (Int64.ofNat n) = v := by
  unfold longOf
  split <;> simp [*]

theorem computed_intOf {n : Nat} (h : intOf n = .ok v) : v.Computed := by
  obtain ⟨-, rfl⟩ := intOf_eq_ok.1 h
  exact .int _

theorem computed_longOf {n : Nat} (h : longOf n = .ok v) : v.Computed := by
  obtain ⟨-, rfl⟩ := longOf_eq_ok.1 h
  exact .long _

theorem computed_narrow {t : ValueType} {n : Int} (h : narrow t n = .ok v) : v.Computed := by
  unfold narrow at h
  split at h
  · cases h
  · rename_i w hw
    cases h
    -- a number that fits is the value of its type, one that does not is none
    have hfits {c : Prop} [Decidable c] {x w : Value} (hx : x.Computed)
        (hw : (if c then some x else none) = some w) : w.Computed := by
      split at hw <;> cases hw
      exact hx
    unfold Value.ofInt? at hw
    split at hw
    · exact hfits (.byte _) hw
    · exact hfits (.short _) hw
    · exact hfits (.int _) hw
    · exact hfits (.long _) hw
    · cases hw

theorem computed_arith {op : ArithOp} {x y : Value}
    (h : (do op.apply (← Operands.ofValues x y)) = .ok v) : v.Computed := by
  obtain ⟨o, -, h⟩ := Outcome.bind_eq_ok.1 h
  cases o with
  | small t x y =>
    obtain ⟨n, -, h⟩ := Outcome.bind_eq_ok.1 h
    exact computed_narrow h
  | big x y =>
    obtain ⟨n, -, h⟩ := Outcome.bind_eq_ok.1 h
    cases h
    exact .bigInt _

theorem computed_compare {op : CompareOp} {x y : Value} (h : op.apply x y = .ok v) :
    v.Computed := by
  cases op with
  | eq | neq | lt | le | gt | ge =>
    obtain ⟨b, -, h⟩ := Outcome.bind_eq_ok.1 h
    cases h
    exact .bool _

theorem computed_negate {x : Value} (h : negate x = .ok v) : v.Computed := by
  unfold negate at h
  split at h
  · obtain ⟨n, -, h⟩ := Outcome.bind_eq_ok.1 h
    cases h
    exact .bigInt _
  · split at h
    · cases h
    · obtain ⟨n, -, h⟩ := Outcome.bind_eq_ok.1 h
      exact computed_narrow h

theorem computed_toBigInt {x : Value} (h : toBigInt x = .ok v) : v.Computed := by
  unfold toBigInt at h
  split at h
  · cases h
    exact .bigInt _
  · split at h <;> cases h
    exact .bigInt _

end Covenant

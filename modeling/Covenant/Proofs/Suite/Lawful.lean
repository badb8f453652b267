/-
  LAWFUL — what is assumed of a suite.

  A suite is operations only.  Everything that is proved about proofs holds of any suite that obeys
  `Suite.Lawful`: its scalars are the residues of the natural numbers modulo a prime larger than
  the number of children any node may have, its points form a module over them, and encodings are
  faithful both ways.  Nothing is assumed of challenges and nonces: they are arbitrary functions of
  a transcript's history.

  From these laws the scalars are a field and the points a module in the sense of mathlib, with the
  suite's own operations, so that `ring`, `field_simp` and `module` apply.
-/
import Covenant.Equation
import Covenant.Proposition
import Mathlib.Algebra.Field.Defs
import Mathlib.Algebra.Module.Defs
import Mathlib.Data.Nat.ModEq
import Mathlib.Data.Nat.Prime.Defs
import Mathlib.Tactic.Module
import Mathlib.Tactic.Ring

namespace Covenant

open Suite

/-- Scalars are the integers modulo a prime, points are a module over them, and encodings are
faithful. -/
class Suite.Lawful [Suite] : Prop where
  /-- Numbers name the same scalar exactly when they agree modulo a prime above `maxChildren`. -/
  order : ∃ l, l.Prime ∧ maxChildren < l ∧
    ∀ m n, (ofNat m : Scalar) = ofNat n ↔ m ≡ n [MOD l]
  ofNat_surjective : ∀ x : Scalar, ∃ n, ofNat n = x
  ofNat_zero : (ofNat 0 : Scalar) = 0
  ofNat_one : (ofNat 1 : Scalar) = 1
  ofNat_add : ∀ m n, (ofNat (m + n) : Scalar) = ofNat m + ofNat n
  ofNat_mul : ∀ m n, (ofNat (m * n) : Scalar) = ofNat m * ofNat n
  add_neg : ∀ x : Scalar, x + -x = 0
  sub_eq : ∀ x y : Scalar, x - y = x + -y
  mul_inverse : ∀ x : Scalar, x ≠ 0 → x * inverse x = 1
  point_add_assoc : ∀ P Q R : Point, P + Q + R = P + (Q + R)
  point_add_comm : ∀ P Q : Point, P + Q = Q + P
  point_zero_add : ∀ P : Point, 0 + P = P
  point_add_neg : ∀ P : Point, P + -P = 0
  smul_add : ∀ (x : Scalar) (P Q : Point), x * (P + Q) = x * P + x * Q
  add_smul : ∀ (x y : Scalar) (P : Point), (x + y) * P = x * P + y * P
  mul_smul : ∀ (x y : Scalar) (P : Point), (x * y) * P = x * (y * P)
  one_smul : ∀ P : Point, (1 : Scalar) * P = P
  decompress_compress : ∀ P : Point, decompress (compress P) = some P
  compress_of_decompress : ∀ (b : PointName) (P : Point), decompress b = some P → compress P = b
  decodeScalar_encodeScalar : ∀ x : Scalar, decodeScalar (encodeScalar x) = some x

namespace Suite

variable [Suite] [laws : Lawful]

/-! ## Scalars -/

/-- What holds of the residues of all numbers holds of all scalars. -/
theorem scalar_induction {p : Scalar → Prop} (h : ∀ n, p (ofNat n)) (x : Scalar) : p x := by
  obtain ⟨n, rfl⟩ := Lawful.ofNat_surjective x
  exact h n

/-- Addition does not depend on the order; stated before the ring, whose negation needs it. -/
theorem scalar_add_comm (x y : Scalar) : x + y = y + x := by
  obtain ⟨m, rfl⟩ := Lawful.ofNat_surjective x
  obtain ⟨n, rfl⟩ := Lawful.ofNat_surjective y
  rw [← Lawful.ofNat_add, ← Lawful.ofNat_add, Nat.add_comm]

instance instCommRing : CommRing Scalar where
  add_assoc := scalar_induction fun a => scalar_induction fun b => scalar_induction fun c => by
    simp only [← Lawful.ofNat_add, Nat.add_assoc]
  zero_add := scalar_induction fun a => by
    rw [← Lawful.ofNat_zero, ← Lawful.ofNat_add, Nat.zero_add]
  add_zero := scalar_induction fun a => by
    rw [← Lawful.ofNat_zero, ← Lawful.ofNat_add, Nat.add_zero]
  -- each law comes from that of the numbers: every scalar is the class of one
  add_comm := scalar_add_comm
  mul_assoc := scalar_induction fun a => scalar_induction fun b => scalar_induction fun c => by
    simp only [← Lawful.ofNat_mul, Nat.mul_assoc]
  one_mul := scalar_induction fun a => by
    rw [← Lawful.ofNat_one, ← Lawful.ofNat_mul, Nat.one_mul]
  mul_one := scalar_induction fun a => by
    rw [← Lawful.ofNat_one, ← Lawful.ofNat_mul, Nat.mul_one]
  zero_mul := scalar_induction fun a => by
    rw [← Lawful.ofNat_zero, ← Lawful.ofNat_mul, Nat.zero_mul]
  mul_zero := scalar_induction fun a => by
    rw [← Lawful.ofNat_zero, ← Lawful.ofNat_mul, Nat.mul_zero]
  mul_comm := scalar_induction fun a => scalar_induction fun b => by
    simp only [← Lawful.ofNat_mul, Nat.mul_comm]
  left_distrib := scalar_induction fun a => scalar_induction fun b => scalar_induction fun c => by
    simp only [← Lawful.ofNat_mul, ← Lawful.ofNat_add, Nat.mul_add]
  right_distrib := scalar_induction fun a => scalar_induction fun b => scalar_induction fun c => by
    simp only [← Lawful.ofNat_mul, ← Lawful.ofNat_add, Nat.add_mul]
  neg_add_cancel x := (scalar_add_comm (-x) x).trans (Lawful.add_neg x)
  sub_eq_add_neg := Lawful.sub_eq
  nsmul := nsmulRec
  zsmul := zsmulRec

/-- A scalar other than zero can be cancelled, so a product vanishes only with a factor. -/
instance : NoZeroDivisors Scalar where
  eq_zero_or_eq_zero_of_mul_eq_zero := by
    intro x y h
    by_cases hx : x = 0
    · exact .inl hx
    · right
      calc y = x * inverse x * y := by rw [Lawful.mul_inverse x hx, one_mul]
        _ = inverse x * (x * y) := by ring
        _ = 0 := by rw [h, mul_zero]

/-- The abscissae of the children of a node: below `maxChildren` they differ from each other and
from zero. -/
theorem ofNat_injective_of_le {m n : Nat} (hm : m ≤ maxChildren) (hn : n ≤ maxChildren)
    (h : (ofNat m : Scalar) = ofNat n) : m = n := by
  obtain ⟨l, -, hl, heq⟩ := Lawful.order
  exact Nat.ModEq.eq_of_lt_of_lt ((heq m n).1 h) (hm.trans_lt hl) (hn.trans_lt hl)

/-- Different numbers up to `maxChildren` name different scalars. -/
theorem nodup_ofNat {ns : List Nat} (hns : ns.Nodup) (hle : ∀ n ∈ ns, n ≤ maxChildren) :
    (ns.map (ofNat : Nat → Scalar)).Nodup :=
  List.Nodup.map_on (fun m hm n hn h => ofNat_injective_of_le (hle m hm) (hle n hn) h) hns

instance : Nontrivial Scalar where
  exists_pair_ne := ⟨ofNat 0, ofNat 1, fun h =>
    Nat.zero_ne_one (ofNat_injective_of_le (by decide) (by decide) h)⟩

instance : IsDomain Scalar := NoZeroDivisors.to_isDomain Scalar

/-! ## Points -/

instance instAddCommGroup : AddCommGroup Point where
  add_assoc := Lawful.point_add_assoc
  zero_add := Lawful.point_zero_add
  add_zero P := (Lawful.point_add_comm P 0).trans (Lawful.point_zero_add P)
  add_comm := Lawful.point_add_comm
  neg_add_cancel P := (Lawful.point_add_comm (-P) P).trans (Lawful.point_add_neg P)
  sub_eq_add_neg _ _ := rfl
  nsmul := nsmulRec
  zsmul := zsmulRec

/-- A multiple of a point is zero when the scalar is: it is its own double. -/
theorem zero_smul_point (P : Point) : (0 : Scalar) * P = 0 := by
  have h : (0 : Scalar) * P + (0 : Scalar) * P = (0 : Scalar) * P := by
    rw [← Lawful.add_smul, add_zero]
  exact left_eq_add.1 h.symm

/-- Every multiple of zero is zero: it is its own double. -/
theorem smul_zero_point (x : Scalar) : x * (0 : Point) = 0 := by
  have h : x * (0 : Point) + x * (0 : Point) = x * (0 : Point) := by
    rw [← Lawful.smul_add, add_zero]
  exact left_eq_add.1 h.symm

instance instModule : Module Scalar Point where
  smul := smul
  one_smul := Lawful.one_smul
  mul_smul := Lawful.mul_smul
  smul_zero := smul_zero_point
  smul_add := Lawful.smul_add
  add_smul := Lawful.add_smul
  zero_smul := zero_smul_point

/-- The suite's own product is the module's. -/
theorem mul_eq_smul (x : Scalar) (P : Point) : x * P = x • P := rfl

/-- Multiplication by a scalar other than zero is undone by its inverse. -/
theorem inverse_smul_smul {x : Scalar} (hx : x ≠ 0) (P : Point) : inverse x * (x * P) = P := by
  rw [← Lawful.mul_smul, mul_comm, Lawful.mul_inverse x hx, Lawful.one_smul]

/-- A multiple of a point vanishes only with one of its factors. -/
theorem smul_point_eq_zero {x : Scalar} {P : Point} : x * P = 0 ↔ x = 0 ∨ P = 0 := by
  constructor
  · intro h
    by_cases hx : x = 0
    · exact .inl hx
    · right
      rw [← inverse_smul_smul hx P, h, smul_zero_point]
  · rintro (rfl | rfl)
    · exact zero_smul_point P
    · exact smul_zero_point x

/-! ## Encodings -/

/-- Different points have different encodings. -/
theorem compress_injective {P Q : Point} (h : compress P = compress Q) : P = Q := by
  have := Lawful.decompress_compress P
  rw [h, Lawful.decompress_compress] at this
  exact (Option.some.inj this).symm

end Suite

end Covenant

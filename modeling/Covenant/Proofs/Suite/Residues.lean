/-
  RESIDUES — a small suite that obeys the laws.

  Scalars and points are both the residues modulo 257, the least prime above `maxChildren`; a
  multiple of a point is a product, and the generator is one.  Nothing is secret in it: it shows
  that the laws of `Suite.Lawful` can be met, and closed runs of the protocol can be evaluated in
  it.
-/
import Covenant.Proofs.Suite.Lawful
import Mathlib.Algebra.Field.ZMod
import Mathlib.Data.ZMod.Basic
import Mathlib.Tactic.NormNum.Prime

namespace Covenant.Suite

instance prime_257 : Fact (Nat.Prime 257) := ⟨by norm_num⟩

/-- The residue that a block spells, when it spells one in canonical form. -/
def residueOf (b : Octets 32) : Option (ZMod 257) :=
  if Bytes.ofLE b.1 < 257 then some (Bytes.ofLE b.1 : Nat) else none

/-- The block that spells a residue. -/
def residueName (x : ZMod 257) : Octets 32 := Octets.ofNatLE 32 x.val

/-- The residues modulo 257 as scalars and as points; every challenge comes from the octet 7, and
nonces count upwards from the number of secrets. -/
@[reducible] def residues : Suite where
  Scalar := ZMod 257
  Point := ZMod 257
  Nonces := ZMod 257
  decEqScalar := inferInstance
  decEqPoint := inferInstance
  zeroScalar := inferInstance
  oneScalar := inferInstance
  addScalar := inferInstance
  subScalar := inferInstance
  negScalar := inferInstance
  mulScalar := inferInstance
  ofNat n := n
  inverse x := x⁻¹
  zeroPoint := inferInstance
  addPoint := inferInstance
  negPoint := inferInstance
  smul x P := x * P
  base := 1
  compress := residueName
  decompress := residueOf
  encodeScalar := residueName
  decodeScalar := residueOf
  squeeze _ _ n := (7 :: List.replicate (n - 1) 0).take n
  nonces _ secrets _ := secrets.length
  nextNonce s := (s, s + 1)

theorem residueOf_residueName (x : ZMod 257) : residueOf (residueName x) = some x := by
  have hx : x.val < 257 := x.val_lt
  have hread : Bytes.ofLE (residueName x).1 = x.val :=
    Bytes.ofLE_toLE 32 x.val (hx.trans (by decide))
  rw [residueOf, hread, if_pos hx, ZMod.natCast_zmod_val]

theorem residueName_of_residueOf {b : Octets 32} {x : ZMod 257} (h : residueOf b = some x) :
    residueName x = b := by
  unfold residueOf at h
  split at h
  · rename_i hlt
    cases h
    rw [residueName, ZMod.val_natCast_of_lt hlt, Octets.ofNatLE_ofLE]
  · cases h

/-- The residues obey the laws. -/
theorem lawful_residues : @Lawful residues :=
  letI := residues
  { order := ⟨257, prime_257.out, by decide, fun m n => ZMod.natCast_eq_natCast_iff m n 257⟩
    ofNat_surjective := fun x => ⟨x.val, ZMod.natCast_zmod_val x⟩
    ofNat_zero := (Nat.cast_zero : ((0 : Nat) : ZMod 257) = 0)
    ofNat_one := (Nat.cast_one : ((1 : Nat) : ZMod 257) = 1)
    ofNat_add := (Nat.cast_add : ∀ m n, ((m + n : Nat) : ZMod 257) = m + n)
    ofNat_mul := (Nat.cast_mul : ∀ m n, ((m * n : Nat) : ZMod 257) = m * n)
    add_neg := fun x : ZMod 257 => add_neg_cancel x
    sub_eq := fun x y : ZMod 257 => sub_eq_add_neg x y
    mul_inverse := fun (x : ZMod 257) (hx : x ≠ 0) => (mul_inv_cancel₀ hx : x * x⁻¹ = 1)
    point_add_assoc := fun x y z : ZMod 257 => add_assoc x y z
    point_add_comm := fun x y : ZMod 257 => add_comm x y
    point_zero_add := fun x : ZMod 257 => zero_add x
    point_add_neg := fun x : ZMod 257 => add_neg_cancel x
    smul_add := fun x y z : ZMod 257 => mul_add x y z
    add_smul := fun x y z : ZMod 257 => add_mul x y z
    mul_smul := fun x y z : ZMod 257 => mul_assoc x y z
    one_smul := fun x : ZMod 257 => one_mul x
    decompress_compress := residueOf_residueName
    compress_of_decompress := fun _ _ => residueName_of_residueOf
    decodeScalar_encodeScalar := residueOf_residueName }

/-- The block that names a multiple of the generator. -/
def multiple (n : Nat) : PointName := @publicPoint residues (@ofNat residues n)

end Covenant.Suite

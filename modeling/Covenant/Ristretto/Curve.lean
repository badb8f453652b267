/-
  CURVE — the prime-order group Ristretto255.

  Points of the twisted Edwards curve −x² + y² = 1 + d x² y² are kept in extended coordinates.
  The group has elements that are classes of eight such points; `decode` picks one point of the
  class that 32 octets name, `encode` gives the one name of a point's class.

  An `Element` is that name.  Two elements are equal exactly when their octets are, and the
  operations go through a representative: decode, compute on the curve, encode.
-/
import Covenant.Bytes
import Covenant.Ristretto.Field

namespace Covenant.Ristretto

open Covenant.Ristretto.Field

/-! ## Curve points -/

/-- Extended coordinates: `x = X / Z`, `y = Y / Z` and `T = X Y / Z`. -/
structure CurvePoint where
  (X Y Z T : Nat)

/-- The curve's coefficient. -/
def d : Nat := 37095705934669439343138083508754565189542113879843219016388785533085940283555

/-- The inverse square root of `-1 - d`. -/
def invSqrtAMinusD : Nat :=
  54469307008909316920995813868745141605393597292927456921205312896311721017578

namespace CurvePoint

/-- The neutral point. -/
def zero : CurvePoint := ⟨0, 1, 1, 0⟩

/-- The sum of two points; the formula has no exceptional cases. -/
def add (P Q : CurvePoint) : CurvePoint :=
  let a := mul (sub P.Y P.X) (sub Q.Y Q.X)
  let b := mul (Field.add P.Y P.X) (Field.add Q.Y Q.X)
  let c := mul (mul (mul 2 d) P.T) Q.T
  let z := mul (mul 2 P.Z) Q.Z
  let e := sub b a
  let f := sub z c
  let g := Field.add z c
  let h := Field.add b a
  ⟨mul e f, mul g h, mul f g, mul e h⟩

/-- The opposite point. -/
def neg (P : CurvePoint) : CurvePoint := ⟨Field.neg P.X, P.Y, P.Z, Field.neg P.T⟩

/-- `n` times a point, for `n` below `2 ^ bits`, by doubling from the low bit up. -/
def times : Nat → Nat → CurvePoint → CurvePoint → CurvePoint
  | 0, _, _, sum => sum
  | bits + 1, n, P, sum =>
    if n = 0 then sum
    else times bits (n / 2) (add P P) (if n % 2 = 1 then add sum P else sum)

end CurvePoint

/-! ## Encoding -/

/-- The representative of the class that the octets name, if they name one: a canonical,
non-negative field element for which the curve equation can be solved. -/
def decode (b : Octets 32) : Option CurvePoint :=
  let s := Bytes.ofLE b.1
  if p ≤ s || isNegative s then none
  else
    let ss := square s
    let u1 := sub 1 ss
    let u2 := Field.add 1 ss
    let u2s := square u2
    let v := sub (neg (mul d (square u1))) u2s
    -- one inverse square root serves both coordinates
    let (isSquare, i) := invSqrt (mul v u2s)
    let dx := mul i u2
    let dy := mul (mul i dx) v
    let x := abs (mul (mul 2 s) dx)
    let y := mul u1 dy
    let t := mul x y
    if !isSquare || isNegative t || y == 0 then none else some ⟨x, y, 1, t⟩

/-- The name of a point's class. -/
def encode (P : CurvePoint) : Octets 32 :=
  let u1 := mul (Field.add P.Z P.Y) (sub P.Z P.Y)
  let u2 := mul P.X P.Y
  let i := (invSqrt (mul u1 (square u2))).2
  let d1 := mul i u1
  let d2 := mul i u2
  let zInv := mul (mul d1 d2) P.T
  -- of the points of a class the same one is written, whichever `P` is
  let rotate := isNegative (mul P.T zInv)
  let x := if rotate then mul P.Y sqrtMinusOne else P.X
  let y := if rotate then mul P.X sqrtMinusOne else P.Y
  let dInv := if rotate then mul d1 invSqrtAMinusD else d2
  let y := if isNegative (mul x zInv) then neg y else y
  Octets.ofNatLE 32 (abs (mul dInv (sub P.Z y)))

/-! ## The group -/

/-- A group element, given by its name. -/
structure Element where
  name : Octets 32
deriving DecidableEq

namespace Element

/-- The element with the given name, if there is one. -/
def ofName (b : Octets 32) : Option Element := (decode b).map fun _ => ⟨b⟩

/-- A point of the element's class. -/
def point (e : Element) : CurvePoint := (decode e.name).getD CurvePoint.zero

/-- The class of a curve point. -/
def ofPoint (P : CurvePoint) : Element := ⟨encode P⟩

/-- The neutral element, whose name is all zeros. -/
def zero : Element := ⟨Octets.zero 32⟩

/-- Sum of elements. -/
def add (a b : Element) : Element := ofPoint (a.point.add b.point)

/-- The opposite element. -/
def neg (a : Element) : Element := ofPoint a.point.neg

/-- A multiple of an element; the factor is below `2 ^ 256`. -/
def times (n : Nat) (a : Element) : Element :=
  ofPoint (CurvePoint.times 256 n a.point CurvePoint.zero)

/-- The generator. -/
def base : Element :=
  ⟨Octets.ofNatLE 32 0x762d8de04559a6b68ddd82a56a0be3585f5100c561a984a8714ebc6a0aaef2e2⟩

end Element

/-! ## Scalars -/

/-- The order of the group. -/
def order : Nat :=
  0x1000000000000000000000000000000014def9dea2f79cd65812631a5cf5d3ed

theorem order_pos : 0 < order := Nat.le_of_ble_eq_true rfl

/-- Numbers modulo the order of the group. -/
abbrev Scalar := Fin order

namespace Scalar

/-- The residue of a number. -/
def ofNat (n : Nat) : Scalar := ⟨n % order, Nat.mod_lt n order_pos⟩

/-- The multiplicative inverse; zero for zero. -/
def inverse (a : Scalar) : Scalar := ofNat (Field.power order 253 a.val (order - 2))

/-- The 32 little-endian octets of the representative. -/
def encode (a : Scalar) : Octets 32 := Octets.ofNatLE 32 a.val

/-- The scalar whose representative the octets spell; a number not below the order has none. -/
def decode (b : Octets 32) : Option Scalar :=
  let n := Bytes.ofLE b.1
  if h : n < order then some ⟨n, h⟩ else none

end Scalar

end Covenant.Ristretto

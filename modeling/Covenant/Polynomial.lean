/-
  POLYNOMIAL — polynomials over the scalars, the sharing scheme of threshold nodes.

  A polynomial is the list of its coefficients, constant term first.  A threshold node shares its
  challenge among its children: child `i` gets the value at `i + 1` of a polynomial whose value at
  zero is the node's challenge.  `interpolate` finds the polynomial through given points by
  Lagrange's formula and fails exactly when two of them share an abscissa.
-/
import Covenant.Suite

namespace Covenant

open Suite

/-- A polynomial by its coefficients, constant term first. -/
structure Polynomial [Suite] where
  coefficients : List Scalar

namespace Polynomial

variable [Suite]

/-- The value at `x` of the polynomial with the given coefficients. -/
def horner : List Scalar → Scalar → Scalar
  | [], _ => 0
  | c :: cs, x => horner cs x * x + c

/-- The value at `x`. -/
def eval (f : Polynomial) (x : Scalar) : Scalar := horner f.coefficients x

/-- The value at zero. -/
def constant (f : Polynomial) : Scalar := f.coefficients.headD 0

/-- One less than the number of coefficients, and zero without any. -/
def degree (f : Polynomial) : Nat := f.coefficients.length - 1

/-- The product with `x - root`. -/
def timesRoot (root : Scalar) (cs : List Scalar) : List Scalar :=
  List.zipWith (· + ·) (0 :: cs) (cs.map (fun c => -(root * c)) ++ [0])

/-- The quotient by `x - root`, when the division is exact. -/
def overRoot (root : Scalar) (cs : List Scalar) : List Scalar :=
  cs.tail.foldr (fun c out => (c + out.headD 0 * root) :: out) []

/-- The product of `x - root` over all given roots. -/
def ofRoots (roots : List Scalar) : List Scalar := roots.foldl (fun cs r => timesRoot r cs) [1]

/-- Adds to `acc` the multiple of `basis` by `scale`. -/
def addScaled (scale : Scalar) (acc basis : List Scalar) : List Scalar :=
  List.zipWith (fun a c => a + scale * c) acc basis

/-- The product of the differences of `x` from every other abscissa: all but the `i`-th. -/
def denominator (xs : List Scalar) (i : Nat) (x : Scalar) : Scalar :=
  Suite.product ((xs.eraseIdx i).map fun y => x - y)

/-- Adds the Lagrange terms of the points numbered from `i`. -/
def lagrange (xs : List Scalar) (all : List Scalar) :
    Nat → List (Scalar × Scalar) → List Scalar → Option (List Scalar)
  | _, [], acc => some acc
  | i, (x, y) :: rest, acc =>
    -- vanishes when another point has the same abscissa
    let d := denominator xs i x
    if d = 0 then none
    else lagrange xs all (i + 1) rest (addScaled (y * inverse d) acc (overRoot x all))

/-- The polynomial with as many coefficients as there are points that passes through all of them;
none when two points share an abscissa. -/
def interpolate (points : List (Scalar × Scalar)) : Option Polynomial :=
  let xs := points.map Prod.fst
  (lagrange xs (ofRoots xs) 0 points (points.map fun _ => 0)).map Polynomial.mk

/-- The abscissa of child `i` of a threshold node. -/
def childPoint (i : Nat) : Scalar := Suite.ofNat (i + 1)

/-- The polynomial with the given constant term and `degree` further coefficients, drawn in order
with `next`; and the state after the draws. -/
def randomWithConstant {σ : Type} (next : σ → Scalar × σ) (constant : Scalar) (degree : Nat)
    (s : σ) : Polynomial × σ :=
  let (cs, s) := draw degree s
  (⟨constant :: cs⟩, s)
where
  /-- That many draws. -/
  draw : Nat → σ → List Scalar × σ
    | 0, s => ([], s)
    | n + 1, s =>
      let (c, s) := next s
      let (cs, s) := draw n s
      (c :: cs, s)

end Polynomial

end Covenant

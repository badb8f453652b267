/-
  EQUATION — deferred checks that a combination of group elements vanishes.

  A verifier collects one `Equation` per condition and settles them together: each is scaled by a
  weight of its own, and the sum must be the neutral element.  With weights nobody could foresee, no
  two wrong equations cancel each other.
-/
import Covenant.Suite

namespace Covenant

open Suite

/-- A combination of the generator and of encoded group elements. -/
structure Equation [Suite] where
  /-- The generator's coefficient; none stands for zero. -/
  base : Option Scalar
  /-- Coefficients of other elements. -/
  terms : List (Scalar × PointName)

namespace Equation

variable [Suite]

/-- The sum of multiples of encoded elements; none when one of them does not decode. -/
def combine : List (Scalar × PointName) → Option Point
  | [] => some 0
  | (w, b) :: rest => do
    let P ← decompress b
    let sum ← combine rest
    some (w * P + sum)

/-- The value of the combination; none when an element does not decode. -/
def value (q : Equation) : Option Point := do
  let sum ← combine q.terms
  match q.base with
  | none => some sum
  | some w => some (w * (Suite.base : Point) + sum)

/-- Whether the combination is defined and vanishes. -/
def holds (q : Equation) : Bool := q.value == some 0

/-- The equation with all coefficients multiplied by a weight. -/
def scale (w : Scalar) (q : Equation) : Equation :=
  ⟨q.base.map (w * ·), q.terms.map fun t => (w * t.1, t.2)⟩

/-- The equations added up, the `i`-th one scaled by the `i`-th weight, counted from `start`. -/
def weigh (weight : Nat → Scalar) (start : Nat) : List Equation → Equation
  | [] => ⟨none, []⟩
  | q :: rest =>
    let scaled := q.scale (weight start)
    let sum := weigh weight (start + 1) rest
    -- terms are kept apart even where they name the same element
    ⟨some (scaled.base.getD 0 + sum.base.getD 0), scaled.terms ++ sum.terms⟩

/-- Whether all equations hold, judged by their weighted sum. -/
def allHold (weight : Nat → Scalar) (qs : List Equation) : Bool := (weigh weight 0 qs).holds

end Equation

end Covenant

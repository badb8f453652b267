/-
  FIELD — arithmetic modulo p = 2^255 − 19 on canonical representatives.

  Elements are natural numbers below `p`; every operation returns such a number.  The one function
  with content is `sqrtRatio`: the square root of a quotient, or of the quotient times the fixed
  square root of −1 when the quotient is no square.  Both Ristretto maps are built on it.
-/
namespace Covenant.Ristretto

/-- The characteristic of the base field. -/
def p : Nat :=
  0x7fffffffffffffffffffffffffffffffffffffffffffffffffffffffffffffed

namespace Field

/-- Sum. -/
def add (a b : Nat) : Nat := (a + b) % p

/-- Difference. -/
def sub (a b : Nat) : Nat := (a + (p - b)) % p

/-- Product. -/
def mul (a b : Nat) : Nat := a * b % p

/-- Additive inverse. -/
def neg (a : Nat) : Nat := (p - a) % p

/-- Square. -/
def square (a : Nat) : Nat := mul a a

/-- `a ^ e` modulo `m`, for exponents below `2 ^ bits`, by squaring from the low bit up. -/
def power (m : Nat) : Nat → Nat → Nat → Nat
  | 0, _, _ => 1 % m
  | bits + 1, a, e =>
    let rest := power m bits (a * a % m) (e / 2)
    if e % 2 = 1 then a * rest % m else rest

/-- A number counts as negative when its canonical representative is odd. -/
def isNegative (a : Nat) : Bool := a % 2 = 1

/-- The one of `a` and `-a` that is not negative. -/
def abs (a : Nat) : Nat := if isNegative a then neg a else a

/-- The square root of −1 that is not negative. -/
def sqrtMinusOne : Nat :=
  19681161376707505956807079304988542015446066515923890162744021073123829784752

/-- The square root of `u / v` that is not negative, and whether there is one.  Without one, the
root of `sqrtMinusOne * u / v` takes its place. -/
def sqrtRatio (u v : Nat) : Bool × Nat :=
  let v3 := mul (square v) v
  let v7 := mul (square v3) v
  let r := mul (mul u v3) (power p 253 (mul u v7) ((p - 5) / 8))
  let check := mul v (square r)
  let isRoot := check == u
  let isNegated := check == neg u
  let isTwisted := check == neg (mul u sqrtMinusOne)
  let r := if isNegated || isTwisted then mul sqrtMinusOne r else r
  (isRoot || isNegated, abs r)

/-- The inverse square root of `v`, and whether there is one. -/
def invSqrt (v : Nat) : Bool × Nat := sqrtRatio 1 v

end Field

end Covenant.Ristretto

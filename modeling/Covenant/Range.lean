/-
  RANGE — the signed numbers of so many bits.
-/
namespace Covenant

/-- As many of the numbers of so many bits are negative, and as many are not. -/
def halfRange (bits : Nat) : Int := Int.ofNat (Nat.pow 2 (bits - 1))

/-- Whether a number is one of so many bits, in two's complement. -/
def fitsBits (bits : Nat) (n : Int) : Bool := -halfRange bits ≤ n && n < halfRange bits

example : fitsBits 8 (-128) = true ∧ fitsBits 8 128 = false := by decide

end Covenant

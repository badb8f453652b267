/-
  KECCAK — the permutation Keccak-f[1600] on twenty-five 64-bit lanes.

  Lane `i` stands for the coordinates `x = i % 5`, `y = i / 5`.  Each of the five step maps is one
  `Vector.ofFn`: the new lane as a function of the old state.  Index arithmetic is done in `Fin 25`
  and `Fin 5`, where addition wraps, so the neighbours in a column are `i + 5`, `i + 10`, … and no
  bound has to be proved.
-/
namespace Covenant.Keccak

/-- The state: lane `x + 5 y` holds the column `(x, y)`. -/
abbrev Lanes := Vector UInt64 25

/-- Rotation towards the high bits. -/
def rotateLeft (w : UInt64) (n : Nat) : UInt64 :=
  if n = 0 then w else (w <<< UInt64.ofNat n) ||| (w >>> UInt64.ofNat (64 - n))

/-- Rotation offset of each lane in step ρ. -/
def rotations : Vector Nat 25 :=
  #v[0, 1, 62, 28, 27, 36, 44, 6, 55, 20, 3, 10, 43, 25, 39, 41, 45, 15, 21, 8, 18, 2, 61, 56, 14]

/-- Constant added to lane zero in each of the twenty-four rounds. -/
def roundConstants : List UInt64 :=
  [0x0000000000000001, 0x0000000000008082, 0x800000000000808a, 0x8000000080008000,
   0x000000000000808b, 0x0000000080000001, 0x8000000080008081, 0x8000000000008009,
   0x000000000000008a, 0x0000000000000088, 0x0000000080008009, 0x000000008000000a,
   0x000000008000808b, 0x800000000000008b, 0x8000000000008089, 0x8000000000008003,
   0x8000000000008002, 0x8000000000000080, 0x000000000000800a, 0x800000008000000a,
   0x8000000080008081, 0x8000000000008080, 0x0000000080000001, 0x8000000080008008]

/-- The lane at column `x` and row `y`, both taken modulo five. -/
def column (a : Lanes) (x y : Nat) : UInt64 := a.get (Fin.ofNat 25 (x % 5 + 5 * (y % 5)))

/-- Step θ: every lane is mixed with the parities of two neighbouring columns. -/
def theta (a : Lanes) : Lanes :=
  let parity : Vector UInt64 5 := Vector.ofFn fun x : Fin 5 =>
    column a x 0 ^^^ column a x 1 ^^^ column a x 2 ^^^ column a x 3 ^^^ column a x 4
  let delta : Vector UInt64 5 := Vector.ofFn fun x : Fin 5 =>
    parity.get (x + 4) ^^^ rotateLeft (parity.get (x + 1)) 1
  Vector.ofFn fun i : Fin 25 => a.get i ^^^ delta.get (Fin.ofNat 5 i.val)

/-- Steps ρ and π: lanes are rotated and moved; lane `(x, y)` comes from `(x + 3 y, x)`. -/
def rhoPi (a : Lanes) : Lanes :=
  Vector.ofFn fun i : Fin 25 =>
    let x := i.val % 5
    let y := i.val / 5
    let source := Fin.ofNat 25 ((x + 3 * y) % 5 + 5 * x)
    rotateLeft (a.get source) (rotations.get source)

/-- Step χ: the only step that is not linear, along each row. -/
def chi (a : Lanes) : Lanes :=
  Vector.ofFn fun i : Fin 25 =>
    let x := i.val % 5
    let y := i.val / 5
    a.get i ^^^ ((~~~ column a (x + 1) y) &&& column a (x + 2) y)

/-- One round: the five steps, the last of which adds the round's constant. -/
def round (a : Lanes) (c : UInt64) : Lanes :=
  let b := chi (rhoPi (theta a))
  b.set 0 (b.get 0 ^^^ c)

/-- The permutation: all twenty-four rounds. -/
def permute (a : Lanes) : Lanes := roundConstants.foldl round a

end Covenant.Keccak

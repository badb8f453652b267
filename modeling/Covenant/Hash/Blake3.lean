/-
  BLAKE3 — the unkeyed hash with 32 octets of output.

  The input is cut into chunks of 1024 octets and each chunk into blocks of 64.  A chunk is a chain
  of compressions; chunks are then joined pairwise in a binary tree whose left subtrees hold the
  largest power of two chunks that leaves something for the right.  The last compression of the
  whole tree carries the `root` flag.
-/
import Covenant.Bytes

namespace Covenant.Blake3

/-- Rotation towards the low bits. -/
def rotateRight (w : UInt32) (n : UInt32) : UInt32 := (w >>> n) ||| (w <<< (32 - n))

/-- Initial chaining value. -/
def initial : List UInt32 :=
  [0x6a09e667, 0xbb67ae85, 0x3c6ef372, 0xa54ff53a, 0x510e527f, 0x9b05688c, 0x1f83d9ab, 0x5be0cd19]

/-- Order in which the message words of one round become those of the next. -/
def permutation : List Nat := [2, 6, 3, 10, 7, 0, 4, 13, 1, 11, 12, 5, 9, 14, 15, 8]

/-! ## Domain flags -/

def chunkStart : UInt32 := 1
def chunkEnd : UInt32 := 2
def parent : UInt32 := 4
def root : UInt32 := 8

/-! ## Compression -/

/-- Sixteen working words; positions outside are never used. -/
abbrev Work := Vector UInt32 16

/-- The quarter round on words `a`, `b`, `c`, `d` with two message words. -/
def mix (v : Work) (a b c d : Fin 16) (x y : UInt32) : Work :=
  let va := v.get a + v.get b + x
  let vd := rotateRight (v.get d ^^^ va) 16
  let vc := v.get c + vd
  let vb := rotateRight (v.get b ^^^ vc) 12
  let va := va + vb + y
  let vd := rotateRight (vd ^^^ va) 8
  let vc := vc + vd
  let vb := rotateRight (vb ^^^ vc) 7
  (((v.set a va).set b vb).set c vc).set d vd

/-- One round: the columns, then the diagonals. -/
def round (v : Work) (m : List UInt32) : Work :=
  let w (i : Nat) : UInt32 := m.getD i 0
  let v := mix v 0 4 8 12 (w 0) (w 1)
  let v := mix v 1 5 9 13 (w 2) (w 3)
  let v := mix v 2 6 10 14 (w 4) (w 5)
  let v := mix v 3 7 11 15 (w 6) (w 7)
  let v := mix v 0 5 10 15 (w 8) (w 9)
  let v := mix v 1 6 11 12 (w 10) (w 11)
  let v := mix v 2 7 8 13 (w 12) (w 13)
  mix v 3 4 9 14 (w 14) (w 15)

/-- `n` rounds, permuting the message words between them. -/
def rounds : Nat → Work → List UInt32 → Work
  | 0, v, _ => v
  | n + 1, v, m => rounds n (round v m) (permutation.map fun i => m.getD i 0)

/-- The chaining value of one block of sixteen words: `counter` numbers the chunk, `size` counts
the octets of the block that belong to the input. -/
def compress (chain block : List UInt32) (counter size : Nat) (flags : UInt32) : List UInt32 :=
  let h (i : Nat) : UInt32 := chain.getD i 0
  let iv (i : Nat) : UInt32 := initial.getD i 0
  let v : Work := #v[h 0, h 1, h 2, h 3, h 4, h 5, h 6, h 7, iv 0, iv 1, iv 2, iv 3,
    UInt32.ofNat counter, UInt32.ofNat (counter / 0x100000000), UInt32.ofNat size, flags]
  let v := rounds 7 v block
  -- longer outputs would have eight more words, which nothing needs
  (List.finRange 8).map fun i => v.get (i.castLE (by decide)) ^^^ v.get (i.natAdd 8)

/-! ## Chunks and the tree -/

/-- Little-endian words; an incomplete last word is dropped. -/
def words : Bytes → List UInt32
  | w :: x :: y :: z :: r => UInt32.ofNat (Bytes.ofLE [w, x, y, z]) :: words r
  | _ => []

/-- The sixteen words of a block, which zeros fill up. -/
def blockWords (b : Bytes) : List UInt32 := words (b ++ List.replicate (64 - b.length) 0)

/-- Chains the blocks of a chunk; `fuel` is at least their number.  `flags` marks the first block,
`last` is added on the final one. -/
def chainBlocks (counter : Nat) (last : UInt32) : Nat → List UInt32 → UInt32 → Bytes → List UInt32
  | 0, chain, _, _ => chain
  | fuel + 1, chain, flags, b =>
    if b.length ≤ 64 then compress chain (blockWords b) counter b.length (flags ||| last)
    else
      let next := compress chain (blockWords (b.take 64)) counter 64 flags
      chainBlocks counter last fuel next 0 (b.drop 64)

/-- The chaining value of one chunk of at most 1024 octets. -/
def chunk (counter : Nat) (flags : UInt32) (b : Bytes) : List UInt32 :=
  chainBlocks counter (chunkEnd ||| flags) 16 initial chunkStart b

/-- The largest power of two below `n`, found by doubling `p`. -/
def leftSize : Nat → Nat → Nat → Nat
  | 0, p, _ => p
  | fuel + 1, p, n => if 2 * p < n then leftSize fuel (2 * p) n else p

/-- The chaining value of a subtree whose first chunk has number `counter`; `fuel` is at least the
number of its chunks. -/
def tree : Nat → Nat → UInt32 → Bytes → List UInt32
  | 0, counter, flags, b => chunk counter flags b
  | fuel + 1, counter, flags, b =>
    let chunks := (b.length + 1023) / 1024
    if chunks ≤ 1 then chunk counter flags b
    else
      let left := leftSize chunks 1 chunks
      let l := tree fuel counter 0 (b.take (1024 * left))
      let r := tree fuel (counter + left) 0 (b.drop (1024 * left))
      -- only chunks are numbered
      compress initial (l ++ r) 0 64 (parent ||| flags)

/-- The digest of a byte string. -/
def hash (b : Bytes) : Octets 32 :=
  Octets.firstOf 32 ((tree (b.length / 1024 + 1) 0 root b).flatMap fun w => Bytes.toLE 4 w.toNat)

end Covenant.Blake3

/-
  DUPLEX — a byte-oriented sponge over Keccak-f[1600] with framed operations (STROBE-128).

  The state is a block of `rate` = 166 octets exposed to the caller, followed by a hidden part.
  Every operation first absorbs a two-octet frame — where the previous operation began, and which
  kind this one is — and then moves its own octets through the block one at a time.  When the block
  is full, or an operation needs fresh output, `turn` seals the frame and permutes.

  Four operations are used by transcripts: `meta` (framing data), `absorb` (messages), `squeeze`
  (pseudo-random output) and `rekey` (secret input that replaces the state).
-/
import Covenant.Bytes
import Covenant.Hash.Keccak

namespace Covenant

/-- Sponge state: the permutation's lanes, the write position in the exposed block, and one past
the position at which the current operation began. -/
structure Duplex where
  lanes : Keccak.Lanes
  position : Nat
  begun : Nat

namespace Duplex

/-- Octets of the exposed block. -/
def rate : Nat := 166

/-! ## Single octets of the state -/

/-- The lane that holds octet `i`. -/
def lane (i : Nat) : Fin 25 := ⟨i / 8 % 25, Nat.mod_lt _ (by decide)⟩

/-- Octet `i` of the state; lanes are little-endian. -/
def octet (a : Keccak.Lanes) (i : Nat) : UInt8 :=
  ((a.get (lane i)) >>> UInt64.ofNat (8 * (i % 8))).toUInt8

/-- Adds `b` to octet `i` without carry. -/
def addOctet (a : Keccak.Lanes) (i : Nat) (b : UInt8) : Keccak.Lanes :=
  a.set (lane i) (a.get (lane i) ^^^ (b.toUInt64 <<< UInt64.ofNat (8 * (i % 8))))

/-- Permutes, after marking the end of the frame and of the block. -/
def turn (d : Duplex) : Duplex :=
  let a := addOctet d.lanes d.position (UInt8.ofNat d.begun)
  let a := addOctet a (d.position + 1) 0x04
  let a := addOctet a (rate + 1) 0x80
  ⟨Keccak.permute a, 0, 0⟩

/-- Moves one octet past the position, turning when the block is full. -/
def advance (d : Duplex) (lanes : Keccak.Lanes) : Duplex :=
  let d := ⟨lanes, d.position + 1, d.begun⟩
  if d.position = rate then d.turn else d

/-! ## The three ways octets meet the block -/

/-- Adds the octets into the block. -/
def addAll (d : Duplex) (b : Bytes) : Duplex :=
  b.foldl (fun d x => d.advance (addOctet d.lanes d.position x)) d

/-- Replaces octets of the block. -/
def overwrite (d : Duplex) (b : Bytes) : Duplex :=
  b.foldl (fun d x => d.advance (addOctet d.lanes d.position (x ^^^ octet d.lanes d.position))) d

/-- Takes `n` octets out of the block, leaving zeros behind. -/
def take : Nat → Duplex → Bytes × Duplex
  | 0, d => ([], d)
  | n + 1, d =>
    let x := octet d.lanes d.position
    let (r, d) := take n (d.advance (addOctet d.lanes d.position x))
    (x :: r, d)

/-! ## Framed operations -/

/-- Opens a frame of the given kind.  Kinds that produce output or take keys (bits `0x04` and
`0x20`) start on a fresh block. -/
def frame (d : Duplex) (kind : UInt8) : Duplex :=
  let previous := UInt8.ofNat d.begun
  let d := addAll ⟨d.lanes, d.position, d.position + 1⟩ [previous, kind]
  if kind &&& 0x24 ≠ 0 ∧ d.position ≠ 0 then d.turn else d

/-- Absorbs framing data in a new frame. -/
def framing (d : Duplex) (b : Bytes) : Duplex := (d.frame 0x12).addAll b

/-- Absorbs a message. -/
def absorb (d : Duplex) (b : Bytes) : Duplex := (d.frame 0x02).addAll b

/-- Absorbs a secret in place of the state it covers. -/
def rekey (d : Duplex) (b : Bytes) : Duplex := (d.frame 0x06).overwrite b

/-- Pseudo-random octets. -/
def squeeze (d : Duplex) (n : Nat) : Bytes × Duplex := (d.frame 0x07).take n

/-- The octets of an ASCII or UTF-8 label. -/
def label (s : String) : Bytes := s.toUTF8.toList

/-- Framing data that is a label followed, in the same frame, by a length. -/
def labelled (d : Duplex) (name : String) (n : Nat) : Duplex :=
  (d.framing (label name)).addAll (Bytes.toLE 4 n)

/-- The state before any operation, separated by a protocol name. -/
def start (protocol : String) : Duplex :=
  -- block size, empty function name and 96 bits of customisation, each number behind its length
  let seed := addAll ⟨Vector.replicate 25 0, 0, 0⟩
    ([1, UInt8.ofNat (rate + 2), 1, 0, 1, 96] ++ label "STROBEv1.0.2")
  framing ⟨Keccak.permute seed.lanes, 0, 0⟩ (label protocol)

end Duplex

end Covenant

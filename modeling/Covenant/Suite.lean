/-
  SUITE — the cryptography everything else is stated over.

  A suite supplies scalars, group elements, their 32-octet encodings, and two sources of numbers
  that look random: `squeeze`, a function of a transcript's history, and `nonces`, a supply for one
  proof made from that history, the prover's secrets and fresh entropy.  The protocol, the wallet
  and the ledger use nothing but these operations, so they run over Ristretto255
  (`Covenant.Suite.Standard`) and are reasoned about over any suite that obeys the group laws.

  Nothing is assumed here: a suite is operations only.
-/
import Covenant.Transcript

namespace Covenant

/-- The encoding of a group element. Not every block of 32 octets encodes one. -/
abbrev PointName := Octets 32

/-- Scalars, group elements and sources of challenges and nonces. -/
class Suite where
  /-- Exponents. -/
  Scalar : Type
  /-- Group elements, written additively. -/
  Point : Type
  /-- The state of a supply of nonces. -/
  Nonces : Type
  decEqScalar : DecidableEq Scalar
  decEqPoint : DecidableEq Point
  zeroScalar : Zero Scalar
  oneScalar : One Scalar
  addScalar : Add Scalar
  subScalar : Sub Scalar
  negScalar : Neg Scalar
  mulScalar : Mul Scalar
  /-- The residue of a natural number. -/
  ofNat : Nat → Scalar
  /-- Multiplicative inverse of a scalar. -/
  inverse : Scalar → Scalar
  zeroPoint : Zero Point
  addPoint : Add Point
  negPoint : Neg Point
  /-- A multiple of a group element. -/
  smul : Scalar → Point → Point
  /-- The generator. -/
  base : Point
  /-- The encoding of a group element. -/
  compress : Point → PointName
  /-- The group element that a block encodes, if any. -/
  decompress : PointName → Option Point
  /-- The encoding of a scalar. -/
  encodeScalar : Scalar → Octets 32
  /-- The scalar a block encodes, if it is in canonical form. -/
  decodeScalar : Octets 32 → Option Scalar
  /-- So many octets that depend on a history, a label and their number. -/
  squeeze : List Transcript.Entry → String → Nat → Bytes
  /-- A supply of nonces from a history, secrets and 32 octets of entropy. -/
  nonces : List Transcript.Entry → List Scalar → Octets 32 → Nonces
  /-- The next nonce of a supply. -/
  nextNonce : Nonces → Scalar × Nonces

namespace Suite

attribute [reducible, instance] decEqScalar decEqPoint zeroScalar oneScalar addScalar subScalar
  negScalar mulScalar zeroPoint addPoint negPoint

instance [Suite] : Inhabited Scalar := ⟨0⟩

variable [Suite]

/-- Difference of group elements. -/
instance : Sub Point := ⟨fun a b => a + -b⟩

instance : HMul Scalar Point Point := ⟨smul⟩

/-- The public point of an exponent. -/
def publicPoint (x : Scalar) : PointName := compress (x * (base : Point))

/-- The scalar that 64 octets stand for once reduced. -/
def reduce (b : Bytes) : Scalar := ofNat (Bytes.ofLE b)

/-- The sum of all scalars of a list. -/
def sum (xs : List Scalar) : Scalar := xs.foldl (· + ·) 0

/-- The product of all scalars of a list. -/
def product (xs : List Scalar) : Scalar := xs.foldl (· * ·) 1

end Suite

namespace Transcript

variable [Suite]

/-- Draws so many octets. -/
def challengeOctets (t : Transcript) (label : String) (n : Nat) : Bytes × Transcript :=
  (Suite.squeeze t.entries label n, t.drew label n)

/-- Draws a block of fixed length. -/
def challengeBlock (t : Transcript) (label : String) (n : Nat) : Octets n × Transcript :=
  (Octets.firstOf n (Suite.squeeze t.entries label n), t.drew label n)

/-- Draws a scalar from 64 octets. -/
def challengeScalar (t : Transcript) (label : String) : Suite.Scalar × Transcript :=
  (Suite.reduce (Suite.squeeze t.entries label 64), t.drew label 64)

end Transcript

/-- A block of 32 octets drawn from a transcript that absorbed a domain and a byte string. -/
def domainHash [Suite] (domain : String) (b : Bytes) : Octets 32 :=
  let t := (Transcript.new "SigVM.hash").append "dom-sep" domain.toUTF8.toList
  ((t.append "data" b).challengeBlock "hash" 32).1

/-- A weight for each equation of a batch, drawn from a byte string.  Drawn from a proof, weights
cannot be known before the proof is complete. -/
def Suite.weights [Suite] (seed : Bytes) (i : Nat) : Suite.Scalar :=
  let t := (Transcript.new "Covenant.weights").append "seed" seed
  ((t.absorb [.u64 "index" (UInt64.ofNat i)]).challengeScalar "weight").1

end Covenant

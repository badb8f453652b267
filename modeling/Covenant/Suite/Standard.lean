/-
  STANDARD — the suite in use: Ristretto255 with challenges from a duplex transcript.

  A history is replayed into a fresh duplex whenever a challenge is drawn from it.  The supply of
  nonces forks that duplex, takes in the secrets and the entropy, and is squeezed 64 octets at a
  time.
-/
import Covenant.Hash.Duplex
import Covenant.Ristretto.Curve
import Covenant.Suite

namespace Covenant.Suite

open Ristretto

/-- The duplex after one entry of a history. -/
def step (d : Duplex) : Transcript.Entry → Duplex
  | .message name b => (d.labelled name b.length).absorb b
  | .challenge name n => ((d.labelled name n).squeeze n).2

/-- The duplex after a history. -/
def replay (h : List Transcript.Entry) : Duplex := h.foldl step (Duplex.start "Merlin v1.0")

/-- The supply of nonces: the history's duplex, rekeyed with every secret and with the entropy. -/
def nonceDuplex (h : List Transcript.Entry) (secrets : List Ristretto.Scalar)
    (entropy : Octets 32) : Duplex :=
  let d := secrets.foldl (fun d x => (d.labelled "x" 32).rekey (Ristretto.Scalar.encode x).1)
    (replay h)
  (d.framing (Duplex.label "rng")).rekey entropy.1

/-- Draws 64 octets and reduces them. -/
def drawNonce (d : Duplex) : Ristretto.Scalar × Duplex :=
  let (b, d) := (d.framing (Bytes.toLE 4 64)).squeeze 64
  (Ristretto.Scalar.ofNat (Bytes.ofLE b), d)

/-- Ristretto255 with duplex transcripts. -/
instance standard : Suite where
  Scalar := Ristretto.Scalar
  Point := Element
  Nonces := Duplex
  decEqScalar := inferInstance
  decEqPoint := inferInstance
  zeroScalar := ⟨Ristretto.Scalar.ofNat 0⟩
  oneScalar := ⟨Ristretto.Scalar.ofNat 1⟩
  addScalar := inferInstance
  subScalar := inferInstance
  negScalar := inferInstance
  mulScalar := inferInstance
  ofNat := Ristretto.Scalar.ofNat
  inverse := Ristretto.Scalar.inverse
  zeroPoint := ⟨Element.zero⟩
  addPoint := ⟨Element.add⟩
  negPoint := ⟨Element.neg⟩
  smul x e := e.times x.val
  base := Element.base
  compress e := e.name
  decompress := Element.ofName
  encodeScalar := Ristretto.Scalar.encode
  decodeScalar := Ristretto.Scalar.decode
  squeeze h name n := ((replay h).labelled name n |>.squeeze n).1
  nonces := nonceDuplex
  nextNonce := drawNonce

end Covenant.Suite

/-
  LEAF — the three-move protocol for one statement.

  The prover commits to a nonce `r`, receives a challenge `e`, and answers `r + e x`.  Somebody
  without the secret can run it backwards: choose `e` and the answer `z` first and solve for the
  commitment (`simulate?`).  Either way the verifier checks the same equations.
-/
import Covenant.Equation
import Covenant.Proposition

namespace Covenant

open Suite

/-- Why no proof was made. -/
inductive ProverError
  /-- The secrets at hand do not satisfy the proposition. -/
  | secretNotFound
  /-- The proposition breaks a rule of provable trees. -/
  | malformedTree (d : TreeDefect)
  /-- A public point of a Diffie–Hellman tuple does not decode. -/
  | tuplePoint
  /-- A public key does not decode. -/
  | publicKey
  /-- The challenges of simulated children do not determine a polynomial. -/
  | interpolation
  /-- The proposition is settled as false. -/
  | unsatisfiable
deriving DecidableEq, Repr

/-- The wording of a failed proof attempt. -/
def ProverError.message : ProverError → String
  | secretNotFound => "Secrets known to the prover do not satisfy the proposition"
  | malformedTree d => d.message
  | tuplePoint => "Group arithmetic failed: DH tuple point does not decompress"
  | publicKey => "Group arithmetic failed: public key does not decompress"
  | interpolation => "Group arithmetic failed: challenge interpolation failed"
  | unsatisfiable => "Proposition is unsatisfiable"

/-- The first move for a statement: one point per equation. -/
inductive Commitment
  | dlog (a : PointName)
  | dhTuple (a b : PointName)
deriving DecidableEq

/-- The committed points in order. -/
def Commitment.points : Commitment → List PointName
  | .dlog a => [a]
  | .dhTuple a b => [a, b]

/-- The committed points as they enter transcripts and proofs. -/
def Commitment.pieces (a : Commitment) : List Piece := a.points.map (Piece.block "a")

namespace Statement

variable [Suite]

/-- Decodes a point of a Diffie–Hellman tuple. -/
def tuplePoint? (b : PointName) : Except ProverError Point :=
  match decompress b with
  | none => .error .tuplePoint
  | some P => .ok P

/-- The commitment to nonce `r`.  All four points of a tuple must decode. -/
def commit? (r : Scalar) : Statement → Except ProverError Commitment
  | .dlog _ => .ok (.dlog (publicPoint r))
  | .dhTuple g h u v => do
    let G ← tuplePoint? g
    let H ← tuplePoint? h
    let _ ← tuplePoint? u
    let _ ← tuplePoint? v
    return .dhTuple (compress (r * G)) (compress (r * H))

/-- The commitment that challenge `e` and answer `z` verify with. -/
def simulate? (e z : Scalar) : Statement → Except ProverError Commitment
  | .dlog y =>
    match decompress y with
    | none => .error .publicKey
    | some Y => .ok (.dlog (compress (z * (base : Point) - e * Y)))
  | .dhTuple g h u v => do
    let G ← tuplePoint? g
    let H ← tuplePoint? h
    let U ← tuplePoint? u
    let V ← tuplePoint? v
    return .dhTuple (compress (z * G - e * U)) (compress (z * H - e * V))

/-- The equations of a finished run; none when the commitment is of the other kind. -/
def equations? (s : Statement) (a : Commitment) (e z : Scalar) : Option (List Equation) :=
  match s, a with
  | .dlog y, .dlog a => some [⟨some z, [(-1, a), (-e, y)]⟩]
  | .dhTuple g h u v, .dhTuple a b =>
    some [⟨none, [(z, g), (-1, a), (-e, u)]⟩, ⟨none, [(z, h), (-1, b), (-e, v)]⟩]
  | _, _ => none

/-- The exponent `x` makes the statement true. -/
def opens (x : Scalar) : Statement → Prop
  | .dlog y => y = publicPoint x
  | .dhTuple g h u v => ∃ G H, decompress g = some G ∧ decompress h = some H ∧
      u = compress (x * G) ∧ v = compress (x * H)

end Statement

end Covenant

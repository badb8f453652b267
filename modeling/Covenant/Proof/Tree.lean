/-
  TREE — finished proof trees and their binary form.

  In a finished tree every node has its challenge and every leaf a full run of its protocol.  Most
  challenges follow from the root's: the children of a conjunction have their parent's, the last
  child of a disjunction has what its siblings leave over, and the children of a threshold node take
  values of a polynomial.  So a proof carries only the leaves' commitments and answers, the
  challenges of all disjuncts but the last, and the coefficients of each threshold polynomial above
  the constant one.
-/
import Covenant.Polynomial
import Covenant.Proof.Leaf

namespace Covenant

open Suite

/-- A proof tree with nothing left open. -/
inductive ProofTree [Suite]
  | leaf (s : Statement) (challenge : Scalar) (commitment : Commitment) (response : Scalar)
  /-- `coefficients` are those of `x`, `x²`, … in a threshold node's polynomial, and empty for the
  other connectives. -/
  | node (c : Connective) (challenge : Scalar) (coefficients : List Scalar)
      (children : List ProofTree)

/-- The degree of the polynomial that shares a challenge among `n` children. -/
def Connective.shareDegree (c : Connective) (n : Nat) : Nat := n - min (c.required n) n

namespace ProofTree

variable [Suite]

/-- The challenge of the root. -/
def challenge : ProofTree → Scalar
  | .leaf _ e _ _ => e
  | .node _ e _ _ => e

mutual

/-- The commitments from left to right. -/
def commitments : ProofTree → List Commitment
  | .leaf _ _ a _ => [a]
  | .node _ _ _ ts => commitmentsAll ts

/-- The commitments of some subtrees from left to right. -/
def commitmentsAll : List ProofTree → List Commitment
  | [] => []
  | t :: ts => t.commitments ++ commitmentsAll ts

end

/-- A scalar under its label. -/
def scalarPiece (label : String) (x : Scalar) : Piece := .block label (encodeScalar x)

mutual

/-- The proof, in pre-order; `explicit` tells whether the root's challenge is written. -/
def pieces (explicit : Bool) : ProofTree → List Piece
  | .leaf _ e a z =>
    (if explicit then [scalarPiece "e" e] else []) ++ a.pieces ++ [scalarPiece "z" z]
  | .node c e cs ts =>
    (if explicit then [scalarPiece "e" e] else []) ++
      match c with
      | .all => piecesAll false ts
      | .any => piecesAll true ts
      | .atLeast _ => cs.map (scalarPiece "c") ++ piecesAll false ts

/-- The proofs of siblings; under a disjunction all but the last write their challenge. -/
def piecesAll (disjuncts : Bool) : List ProofTree → List Piece
  | [] => []
  | t :: ts => t.pieces (disjuncts && !ts.isEmpty) ++ piecesAll disjuncts ts

end

/-- The binary form of a proof. -/
def toBytes (t : ProofTree) : Bytes := Piece.join (t.pieces false)

mutual

/-- The equations of all leaves; none when a commitment is of the wrong kind. -/
def equations? : ProofTree → Option (List Equation)
  | .leaf s e a z => s.equations? a e z
  | .node _ _ _ ts => equationsAll? ts

/-- The equations of all leaves of some subtrees. -/
def equationsAll? : List ProofTree → Option (List Equation)
  | [] => some []
  | t :: ts => do
    let first ← t.equations?
    let rest ← equationsAll? ts
    return first ++ rest

end

end ProofTree

end Covenant

/-
  VERIFIER — from a proof back to a finished tree, and its equations.

  `Sketch` is what a proof holds, laid over the shape of the proposition: commitments, answers, and
  the few challenges and coefficients that are written out.  `propagate` fills in every other
  challenge from the root's.  A proof is accepted when the equations of all leaves hold.
-/
import Covenant.Proof.Listing
import Covenant.Proof.Tree

namespace Covenant

open Suite

/-- Why a proof was not accepted. -/
inductive VerificationError
  /-- The proof parses and its equations do not hold. -/
  | invalidProof
  /-- The proof does not have the shape of the proposition. -/
  | malformedProof (e : CodecError)
  /-- The proposition breaks a rule of provable trees. -/
  | malformedTree (d : TreeDefect)
  /-- The proposition is settled as false. -/
  | unsatisfiable
deriving DecidableEq, Repr

/-- The wording of a failed verification. -/
def VerificationError.message : VerificationError → String
  | invalidProof => "Proof verification failed"
  | malformedProof e => "Malformed proof: " ++ e.message
  | malformedTree d => d.message
  | unsatisfiable => "Proposition is unsatisfiable"

/-- What a proof says about each node. -/
inductive Sketch [Suite]
  | leaf (s : Statement) (challenge : Option Scalar) (commitment : Commitment) (response : Scalar)
  | node (c : Connective) (challenge : Option Scalar) (coefficients : List Scalar)
      (children : List Sketch)

namespace Sketch

variable [Suite]

/-- The challenge that was written for the root. -/
def challenge? : Sketch → Option Scalar
  | .leaf _ e _ _ => e
  | .node _ e _ _ => e

/-! ## Reading -/

/-- Reads a commitment of a statement's kind; its points are not checked. -/
def commitment : Statement → Decoder Commitment
  | .dlog _ => return .dlog (← Decoder.octets 32)
  | .dhTuple _ _ _ _ => do
    let a ← Decoder.octets 32
    let b ← Decoder.octets 32
    return .dhTuple a b

/-- Reads a challenge where one is written. -/
def explicitChallenge (explicit : Bool) : Decoder (Option Scalar) :=
  if explicit then return some (← Decoder.scalar) else return none

/-- Reads the coefficients that a node's proof carries. -/
def coefficients (c : Connective) (n : Nat) : Decoder (List Scalar) :=
  match c with
  | .atLeast _ => Decoder.replicate (c.shareDegree n) Decoder.scalar
  | _ => return []

mutual

/-- Reads the proof of a subtree; `explicit` tells whether the root's challenge is written. -/
def decoder (explicit : Bool) : Proposition → Decoder Sketch
  | .trivial b => return .node (if b then .all else .any) none [] []
  | .leaf s => do
    let e ← explicitChallenge explicit
    let a ← commitment s
    let z ← Decoder.scalar
    return .leaf s e a z
  | .node c cs => do
    let e ← explicitChallenge explicit
    let fs ← coefficients c cs.length
    let ts ← decoderAll (c == .any) cs
    return .node c e fs ts

/-- Reads the proofs of siblings; under a disjunction all but the last have their challenge. -/
def decoderAll (disjuncts : Bool) : List Proposition → Decoder (List Sketch)
  | [] => return []
  | c :: cs => do
    let t ← decoder (disjuncts && !cs.isEmpty) c
    let ts ← decoderAll disjuncts cs
    return t :: ts

end

/-! ## Filling in -/

/-- The challenges of disjuncts: the last one gets what the written ones leave over. -/
def disjunctChallenges : Scalar → List Sketch → Except TreeDefect (List Scalar)
  | _, [] => .ok []
  -- a challenge written for the last disjunct would be ignored; the decoder reads none
  | rest, [_] => .ok [rest]
  | rest, t :: ts =>
    match t.challenge? with
    | none => .error .disjunctWithoutChallenge
    | some e => do
      let es ← disjunctChallenges (rest - e) ts
      return e :: es

/-- The challenges of all children of a node with challenge `e`. -/
def childChallenges (c : Connective) (e : Scalar) (coefficients : List Scalar) (ts : List Sketch) :
    Except TreeDefect (List Scalar) :=
  match c with
  | .all => .ok (ts.map fun _ => e)
  | .any => disjunctChallenges e ts
  | .atLeast _ =>
    let f : Polynomial := ⟨e :: coefficients⟩
    .ok ((List.range ts.length).map fun j => f.eval (Polynomial.childPoint j))

mutual

/-- The finished tree with a given root challenge. -/
def propagate : Sketch → Scalar → Except TreeDefect ProofTree
  | .leaf s _ a z, e => .ok (.leaf s e a z)
  | .node c _ fs ts, e => do
    let es ← childChallenges c e fs ts
    let us ← propagateAll ts es
    return .node c e fs us

/-- The finished subtrees with one challenge each. -/
def propagateAll : List Sketch → List Scalar → Except TreeDefect (List ProofTree)
  | [], _ => .ok []
  | _ :: _, [] => .error .disjunctWithoutChallenge
  | t :: ts, e :: es => do
    let u ← propagate t e
    let us ← propagateAll ts es
    return u :: us

end

mutual

/-- The commitments from left to right. -/
def commitments : Sketch → List Commitment
  | .leaf _ _ a _ => [a]
  | .node _ _ _ ts => commitmentsAll ts

/-- The commitments of some subtrees from left to right. -/
def commitmentsAll : List Sketch → List Commitment
  | [] => []
  | t :: ts => t.commitments ++ commitmentsAll ts

end

end Sketch

/-! ## Verifying -/

/-- The proof that a text gives in hexadecimal. -/
def proofOfHex (s : String) : Except CodecError Bytes :=
  match Hex.decode s with
  | none => .error (.invalidFormat .proofText)
  | some b => .ok b

/-- The failure a broken rule of the tree causes. -/
def VerificationError.ofTree {α : Type} : Except TreeDefect α → Except VerificationError α
  | .ok x => .ok x
  | .error d => .error (.malformedTree d)

/-- Verifies a proof of `p` over `message`; `weight` gives each equation its weight. -/
def verify [Suite] (p : Proposition) (proof message : Bytes) (weight : Nat → Scalar) :
    Except VerificationError Unit :=
  match p with
  | .trivial true => if proof.isEmpty then .ok () else .error (.malformedProof .trailingBytes)
  | .trivial false => .error .unsatisfiable
  | p => do
    let ns ← VerificationError.ofTree p.listing
    let sketch ←
      match (Sketch.decoder false p).exactly proof with
      | .error e => throw (.malformedProof e)
      | .ok t => pure t
    -- the root's challenge is never written: it is drawn again from the commitments
    let e ← VerificationError.ofTree (rootChallenge message ns sketch.commitments)
    let t ← VerificationError.ofTree (sketch.propagate e)
    match t.equations? with
    | none => throw .invalidProof
    | some qs => if Equation.allHold weight qs then return () else throw .invalidProof

end Covenant

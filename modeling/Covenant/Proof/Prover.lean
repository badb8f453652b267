/-
  PROVER — from secrets to a proof, in four passes over the tree.

  1. `Marks.find` finds out, leaves first, which nodes the secrets at hand can satisfy: the real
     ones.
  2. `Marks.polish` keeps exactly as many real children of a real node as its connective asks for and
     gives up all others.  The plan for the rest is read off the marks (`Plan.ofMarks`);
     `Plan.mark` and `Plan.polish` make it by recursion.
  3. `commit` draws a nonce for every real leaf; a child that is not real gets a challenge of the
     prover's choice and is finished on the spot by running every leaf below backwards (`simulate`).
  4. `Draft.respond` takes the root challenge down the real nodes, splits it among real children so
     that the challenges chosen before fit in, and answers the real leaves.

  Nonces come from a state and a function `next` on it, in one fixed order: the simulated children
  of a node get their challenges before anything below it is done.
-/
import Covenant.Proof.Marks
import Covenant.Proof.Tree

namespace Covenant

open Suite

/-! ## Which nodes are real -/

/-- A proposition with the secrets its proof will use. -/
inductive Plan [Suite]
  /-- A leaf is real when its secret is at hand. -/
  | leaf (s : Statement) (secret : Option Scalar)
  | node (c : Connective) (real : Bool) (children : List Plan)

namespace Plan

variable [Suite]

/-- Whether the root is real. -/
def isReal : Plan → Bool
  | .leaf _ x => x.isSome
  | .node _ real _ => real

mutual

/-- Marks the nodes that the secrets found by `resolve` satisfy.  A settled value counts as the
connective without children that has this value. -/
def mark (resolve : Statement → Option Scalar) : Proposition → Plan
  | .trivial b => .node (if b then .all else .any) b []
  | .leaf s => .leaf s (resolve s)
  | .node c cs =>
    let ps := markAll resolve cs
    .node c (decide (c.required ps.length ≤ ps.countP isReal)) ps

/-- Marks some subtrees. -/
def markAll (resolve : Statement → Option Scalar) : List Proposition → List Plan
  | [] => []
  | c :: cs => mark resolve c :: markAll resolve cs

end

mutual

/-- Gives up what is not needed; `keep` tells whether the root is. -/
def polish (keep : Bool) : Plan → Plan
  | .leaf s x => .leaf s (if keep then x else none)
  | .node c real ps =>
    let real := real && keep
    .node c real (polishAll (if real then c.required ps.length else 0) ps)

/-- Keeps the first `budget` real subtrees and gives up the others. -/
def polishAll (budget : Nat) : List Plan → List Plan
  | [] => []
  | p :: ps =>
    if p.isReal && budget != 0 then polish true p :: polishAll (budget - 1) ps
    else polish false p :: polishAll budget ps

end

mutual

/-- The plan for a subtree whose root has the number `i` in a listing with these marks.  A settled
value has no number. -/
def ofMarks (m : Marks) (i : Nat) : Proposition → Plan
  | .trivial b => .node (if b then .all else .any) b []
  | .leaf s => .leaf s (m.secret? i)
  | .node c cs => .node c (m.isReal i) (ofMarksAll m (i + 1) cs)

/-- The plans for sibling subtrees, the first of which has the number `i`. -/
def ofMarksAll (m : Marks) (i : Nat) : List Proposition → List Plan
  | [] => []
  | c :: cs => ofMarks m i c :: ofMarksAll m (i + c.size) cs

end

mutual

/-- The secrets of the real leaves from left to right. -/
def secrets : Plan → List Scalar
  | .leaf _ x => x.toList
  | .node _ _ ps => secretsAll ps

/-- The secrets of the real leaves of some subtrees. -/
def secretsAll : List Plan → List Scalar
  | [] => []
  | p :: ps => p.secrets ++ secretsAll ps

end

end Plan

/-! ## First moves -/

section Moves

variable [Suite] {σ : Type} (next : σ → Scalar × σ)

/-- The challenges of all disjuncts: drawn for all but the last, which gets the rest. -/
def splitChallenge : Nat → Scalar → σ → List Scalar × σ
  | 0, _, s => ([], s)
  | 1, rest, s => ([rest], s)
  | n + 2, rest, s =>
    let (e, s) := next s
    let (es, s) := splitChallenge (n + 1) (rest - e) s
    (e :: es, s)

/-- The challenges of the `n` children of a simulated node, with the coefficients that share it. -/
def shareChallenge (c : Connective) (n : Nat) (e : Scalar) (s : σ) :
    List Scalar × List Scalar × σ :=
  match c with
  | .all => (List.replicate n e, [], s)
  | .any =>
    let (es, s) := splitChallenge next n e s
    (es, [], s)
  | .atLeast _ =>
    let (f, s) := Polynomial.randomWithConstant next e (c.shareDegree n) s
    -- the constant term is the node's own challenge, so it is not written
    ((List.range n).map fun j => f.eval (Polynomial.childPoint j), f.coefficients.tail, s)

mutual

/-- Finishes a subtree for a chosen challenge without any secret. -/
def simulate : Plan → Scalar → σ → Except ProverError (ProofTree × σ)
  | .leaf st _, e, s => do
    let (z, s) := next s
    let a ← st.simulate? e z
    return (.leaf st e a z, s)
  | .node c _ ps, e, s => do
    let (es, cs, s) := shareChallenge next c ps.length e s
    let (ts, s) ← simulateAll ps es s
    return (.node c e cs ts, s)

/-- Finishes subtrees for one chosen challenge each. -/
def simulateAll : List Plan → List Scalar → σ → Except ProverError (List ProofTree × σ)
  | [], _, s => .ok ([], s)
  | _ :: _, [], _ => .error (.malformedTree .simulatedWithoutChallenge)
  | p :: ps, e :: es, s => do
    let (t, s) ← simulate p e s
    let (ts, s) ← simulateAll ps es s
    return (t :: ts, s)

end

/-- A tree after the first moves: real leaves await their challenge, the rest is finished. -/
inductive Draft
  | opened (s : Statement) (secret nonce : Scalar) (commitment : Commitment)
  | simulated (t : ProofTree)
  | node (c : Connective) (children : List Draft)

/-- Draws challenges for the children that are not real; real children get none. -/
def drawChallenges : List Plan → σ → List (Option Scalar) × σ
  | [], s => ([], s)
  | p :: ps, s =>
    if p.isReal then
      let (es, s) := drawChallenges ps s
      (none :: es, s)
    else
      let (e, s) := next s
      let (es, s) := drawChallenges ps s
      (some e :: es, s)

/-- The challenges a real node chooses for its children before it has one itself. -/
def presetChallenges (c : Connective) (ps : List Plan) (s : σ) : List (Option Scalar) × σ :=
  match c with
  | .all => (ps.map fun _ => none, s)
  | _ => drawChallenges next ps s

mutual

/-- Makes the first moves of a real subtree. -/
def commit : Plan → σ → Except ProverError (Draft × σ)
  | .leaf _ none, _ => .error (.malformedTree .simulatedWithoutChallenge)
  | .leaf st (some x), s => do
    let (r, s) := next s
    let a ← st.commit? r
    return (.opened st x r a, s)
  | .node c real ps, s => do
    if !real then throw (.malformedTree .simulatedWithoutChallenge)
    let (es, s) := presetChallenges next c ps s
    let (ds, s) ← commitAll ps es s
    return (.node c ds, s)

/-- Makes the first moves of children with the challenges their parent chose for them. -/
def commitAll : List Plan → List (Option Scalar) → σ → Except ProverError (List Draft × σ)
  | [], _, s => .ok ([], s)
  | p :: ps, es, s => do
    let (d, s) ←
      if p.isReal then commit p s
      else
        match es with
        | some e :: _ =>
          let (t, s) ← simulate next p e s
          pure (Draft.simulated t, s)
        | _ => throw (.malformedTree .simulatedWithoutChallenge)
    let (ds, s) ← commitAll ps es.tail s
    return (d :: ds, s)

end

end Moves

/-! ## Answers -/

namespace Draft

variable [Suite]

/-- The challenge of a finished child. -/
def challenge? : Draft → Option Scalar
  | .simulated t => some t.challenge
  | _ => none

mutual

/-- The commitments from left to right. -/
def commitments : Draft → List Commitment
  | .opened _ _ _ a => [a]
  | .simulated t => t.commitments
  | .node _ ds => commitmentsAll ds

/-- The commitments of some subtrees from left to right. -/
def commitmentsAll : List Draft → List Commitment
  | [] => []
  | d :: ds => d.commitments ++ commitmentsAll ds

end

/-- The points that finished children fix on their parent's polynomial, counting from child `j`. -/
def fixedPoints (j : Nat) : List Draft → List (Scalar × Scalar)
  | [] => []
  | d :: ds =>
    match d.challenge? with
    | none => fixedPoints (j + 1) ds
    | some e => (Polynomial.childPoint j, e) :: fixedPoints (j + 1) ds

/-- The challenges for the real children of a real node, one per child, with the coefficients of
the polynomial they lie on. -/
def settle (c : Connective) (e : Scalar) (ds : List Draft) :
    Except ProverError (List Scalar × List Scalar) :=
  match c with
  | .all => .ok (ds.map fun _ => e, [])
  | .any =>
    if ds.all fun d => d.challenge?.isSome then .error (.malformedTree .disjunctionWithoutReal)
    else
      let rest := (ds.filterMap challenge?).foldl (· - ·) e
      .ok (ds.map fun _ => rest, [])
  | .atLeast _ =>
    match Polynomial.interpolate ((0, e) :: fixedPoints 0 ds) with
    | none => .error .interpolation
    | some f => .ok ((List.range ds.length).map fun j => f.eval (Polynomial.childPoint j),
        f.coefficients.tail)

mutual

/-- Finishes a tree for a given challenge; what is finished already stays as it is. -/
def respond : Draft → Scalar → Except ProverError ProofTree
  | .opened s x r a, e => .ok (.leaf s e a (r + e * x))
  | .simulated t, _ => .ok t
  | .node c ds, e => do
    let (es, cs) ← settle c e ds
    let ts ← respondAll ds es
    return .node c e cs ts

/-- Finishes children for one challenge each. -/
def respondAll : List Draft → List Scalar → Except ProverError (List ProofTree)
  | [], _ => .ok []
  | _ :: _, [] => .error (.malformedTree .simulatedWithoutChallenge)
  | d :: ds, e :: es => do
    let t ← respond d e
    let ts ← respondAll ds es
    return t :: ts

end

end Draft

/-! ## Proving -/

/-- The failure a broken rule of the tree causes. -/
def ProverError.ofTree {α : Type} : Except TreeDefect α → Except ProverError α
  | .ok x => .ok x
  | .error d => .error (.malformedTree d)

/-- Proves `p` over `message` with the secrets that `resolve` finds.  Nonces depend on the message,
the secrets in use and 32 octets of entropy.  A true proposition has the empty proof. -/
def prove [Suite] (p : Proposition) (resolve : Statement → Option Scalar) (message : Bytes)
    (entropy : Octets 32) : Except ProverError Bytes :=
  match p with
  | .trivial true => .ok []
  | .trivial false => .error .unsatisfiable
  | p => do
    let ns ← ProverError.ofTree p.listing
    let marks := Marks.find resolve ns
    -- the root is listed first
    if !marks.isReal 0 then throw .secretNotFound
    let plan := Plan.ofMarks (marks.polish ns) 0 p
    -- secrets that were given up do not enter the supply
    let supply := nonces (Transcript.ofMessage message).entries plan.secrets entropy
    let (draft, _) ← commit nextNonce plan supply
    let e ← ProverError.ofTree (rootChallenge message ns draft.commitments)
    let t ← draft.respond e
    return t.toBytes

end Covenant

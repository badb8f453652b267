/-
  MARKS — which of the listed nodes a prover will show by secrets: the real ones.

  The prover goes over the listing twice and rewrites the same marks.

  1. `Marks.find` goes backwards, so that it meets the children of a node before the node: a leaf is
     real when its secret is found, an inner node when as many of its children are as its connective
     asks for.
  2. `Marks.polish` goes forwards, so that a node has its last mark before its children get theirs:
     of the real children of a real node the first ones are kept, as many as the connective asks for,
     and all others are given up; all children of a node that is not real are.
-/
import Covenant.Proof.Listing

namespace Covenant

variable [Suite]

/-- What the prover notes about the nodes of a listing, by their numbers. -/
structure Marks [Suite] where
  /-- The secrets that were found for leaves. -/
  known : List (Option Suite.Scalar)
  /-- Which nodes are real. -/
  real : List Bool

namespace Marks

/-- Nothing is known about so many nodes. -/
def blank (n : Nat) : Marks := ⟨List.replicate n none, List.replicate n false⟩

/-- Whether a node is real. -/
def isReal (m : Marks) (i : Nat) : Bool := m.real.getD i false

/-- The secret of a real leaf. -/
def secret? (m : Marks) (i : Nat) : Option Suite.Scalar :=
  if m.isReal i then m.known.getD i none else none

/-! ## Backwards -/

/-- Marks the node with number `i`, given marks for its children. -/
def markNode (resolve : Statement → Option Suite.Scalar) (n : ListedNode) (i : Nat) (m : Marks) :
    Marks :=
  match n.kind with
  | .leaf s => ⟨m.known.set i (resolve s), m.real.set i (resolve s).isSome⟩
  | .inner c =>
    let enough := decide (c.required n.children.length ≤ n.children.countP m.isReal)
    { m with real := m.real.set i enough }

/-- Marks the listed nodes that the secrets found by `resolve` satisfy, the last node first. -/
def find (resolve : Statement → Option Suite.Scalar) (ns : List ListedNode) : Marks :=
  ns.zipIdx.foldr (fun (n, i) m => m.markNode resolve n i) (blank ns.length)

/-! ## Forwards -/

/-- Gives up a node. -/
def giveUp (m : Marks) (i : Nat) : Marks := { m with real := m.real.set i false }

/-- Keeps the first `budget` real ones among some nodes and gives up the others. -/
def keepFirst (budget : Nat) : List Nat → Marks → Marks
  | [], m => m
  | j :: js, m =>
    if m.isReal j && budget != 0 then keepFirst (budget - 1) js m
    else keepFirst budget js (m.giveUp j)

/-- Settles which children of the node with number `i` stay real. -/
def polishNode (n : ListedNode) (i : Nat) (m : Marks) : Marks :=
  match n.kind with
  | .leaf _ => m
  | .inner c => m.keepFirst (if m.isReal i then c.required n.children.length else 0) n.children

/-- Gives up what is not needed, the first node first. -/
def polish (ns : List ListedNode) (m : Marks) : Marks :=
  ns.zipIdx.foldl (fun m (n, i) => m.polishNode n i) m

end Marks

end Covenant

/-
  LISTING — the nodes of a proposition in pre-order, and the challenge that binds them.

  A listing numbers the nodes so that every parent comes before its children and a subtree occupies
  consecutive numbers.  Building one (`listing`) works off a stack, links each node to its parent, and
  checks the rules of provable trees, first node first; `listFrom` lists the same by recursion.

  The challenge of a proof is drawn from a transcript that absorbed the message and then, node by
  node, the tag, the counts, the public points and the commitments (`challengePieces`).
-/
import Covenant.Proof.Leaf

namespace Covenant

/-- What a listed node is. -/
inductive NodeKind
  | leaf (s : Statement)
  | inner (c : Connective)
deriving DecidableEq

/-- A node with the numbers of its neighbours in the tree. -/
structure ListedNode where
  kind : NodeKind
  parent : Option Nat
  children : List Nat
deriving DecidableEq

namespace Proposition

/-- The numbers of consecutive siblings, the first of which has number `i`. -/
def siblings (i : Nat) : List Proposition → List Nat
  | [] => []
  | c :: cs => i :: siblings (i + c.size) cs

mutual

/-- Lists a subtree whose root is at a given depth and has number `i`. -/
def listFrom (depth i : Nat) (parent : Option Nat) :
    Proposition → Except TreeDefect (List ListedNode)
  | .trivial _ => if maxDepth < depth then .error .tooDeep else .error .trivialInTree
  | .leaf s => if maxDepth < depth then .error .tooDeep else .ok [⟨.leaf s, parent, []⟩]
  | .node c cs => do
    if maxDepth < depth then throw .tooDeep
    checkNode c cs.length
    let below ← listAllFrom (depth + 1) (i + 1) i cs
    return ⟨.inner c, parent, siblings (i + 1) cs⟩ :: below

/-- Lists sibling subtrees, the first of which has number `i`. -/
def listAllFrom (depth i parent : Nat) : List Proposition → Except TreeDefect (List ListedNode)
  | [] => .ok []
  | c :: cs => do
    let first ← listFrom depth i (some parent) c
    let rest ← listAllFrom depth (i + c.size) parent cs
    return first ++ rest

end

/-- A listing in which a node, if one is named, has further children behind those it has. -/
def adopt (parent : Option Nat) (children : List Nat) (nodes : List ListedNode) :
    List ListedNode :=
  match parent with
  | none => nodes
  | some i => nodes.modify i fun n => { n with children := n.children ++ children }

/-- A listing with one more node, which becomes the last child of its parent. -/
def addNode (nodes : List ListedNode) (kind : NodeKind) (parent : Option Nat) : List ListedNode :=
  adopt parent [nodes.length] nodes ++ [⟨kind, parent, []⟩]

/-- Some subtrees with the number of their parent and the depth of their roots. -/
def underParent (parent : Option Nat) (depth : Nat) (cs : List Proposition) :
    List (Proposition × Option Nat × Nat) :=
  cs.map fun c => (c, parent, depth)

theorem map_fst_underParent (parent : Option Nat) (depth : Nat) (cs : List Proposition) :
    (underParent parent depth cs).map Prod.fst = cs := by
  simp [underParent, Function.comp_def]

/-- Lists the nodes on a stack and those below them, behind what is listed already.  Children are put
onto the stack so that the first one comes first. -/
@[semireducible] def listStack (nodes : List ListedNode) :
    List (Proposition × Option Nat × Nat) → Except TreeDefect (List ListedNode)
  | [] => .ok nodes
  | (p, parent, depth) :: stack =>
    if maxDepth < depth then .error .tooDeep
    else
      match p with
      | .trivial _ => .error .trivialInTree
      | .leaf s => listStack (addNode nodes (.leaf s) parent) stack
      | .node c cs => do
        checkNode c cs.length
        listStack (addNode nodes (.inner c) parent)
          (underParent (some nodes.length) (depth + 1) cs ++ stack)
termination_by stack => sizeAll (stack.map Prod.fst)
decreasing_by
  · exact Nat.lt_add_of_pos_left Nat.one_pos
  · rw [List.map_append, map_fst_underParent, sizeAll_append, List.map_cons, sizeAll_cons, size]
    omega

/-- The nodes in pre-order, or the first broken rule. -/
def listing (p : Proposition) : Except TreeDefect (List ListedNode) := listStack [] [(p, none, 0)]

end Proposition

/-- The nodes as they enter the transcript, each leaf followed by the next commitment. -/
def nodePieces : List ListedNode → List Commitment → Except TreeDefect (List Piece)
  | [], _ => .ok []
  | ⟨.inner c, _, children⟩ :: ns, as => do
    let rest ← nodePieces ns as
    return c.pieces children.length ++ rest
  | ⟨.leaf _, _, _⟩ :: _, [] => .error .leafWithoutCommitment
  | ⟨.leaf s, _, _⟩ :: ns, a :: as => do
    let rest ← nodePieces ns as
    return .u8 "tag" s.tag :: s.points ++ a.pieces ++ rest

/-- All that the challenge of a proof depends on besides the message. -/
def challengePieces (ns : List ListedNode) (as : List Commitment) :
    Except TreeDefect (List Piece) := do
  let rest ← nodePieces ns as
  return .size "nodes" ns.length :: rest

/-- The transcript of a proof over a message. -/
def Transcript.ofMessage (message : Bytes) : Transcript :=
  (Transcript.new "Sigma.proof").append "msg" message

/-- The challenge for commitments `as` to the leaves of a listing. -/
def rootChallenge [Suite] (message : Bytes) (ns : List ListedNode) (as : List Commitment) :
    Except TreeDefect Suite.Scalar := do
  let ps ← challengePieces ns as
  return (((Transcript.ofMessage message).absorb ps).challengeScalar "e").1

end Covenant

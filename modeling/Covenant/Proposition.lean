/-
  PROPOSITION — what a proof can show: monotone formulas over knowledge of secret exponents.

  A leaf is a `Statement`: "I know the discrete logarithm of `y`", or "I know the one exponent that
  takes `g` to `u` and `h` to `v`".  Inner nodes ask for all, any, or at least `k` of their
  children; `Connective.required` says how many that is, and is all that the protocol needs to know
  about a connective.  A trivial proposition stands for a settled truth value and makes sense at the
  root only.

  * `allOf`, `anyOf`, `atLeast` build a connective and fold settled children away;
  * `validate` checks the rules a provable tree obeys, node by node from a stack; `checkFrom` does
    the same by recursion;
  * `depthStack` and `leavesStack` walk a tree from a stack, too, for what `depth` and `leaves` find
    by recursion;
  * `pieces` and `decoder` are the two directions of the encoding.
-/
import Covenant.Codec

namespace Covenant

/-! ## Statements -/

/-- Knowledge of one secret exponent. -/
inductive Statement
  /-- Of `x` with `y = x · base`. -/
  | dlog (y : PointName)
  /-- Of `x` with `u = x · g` and `v = x · h`. -/
  | dhTuple (g h u v : PointName)
deriving DecidableEq

/-- The public points in encoding order, under their labels. -/
def Statement.points : Statement → List Piece
  | .dlog y => [.block "y" y]
  | .dhTuple g h u v => [.block "g" g, .block "h" h, .block "u" u, .block "v" v]

/-! ## Trees -/

/-- How many of its children a node asks for. -/
inductive Connective
  | all
  | any
  | atLeast (k : Nat)
deriving DecidableEq

/-- The number of children that must hold, of `n`. -/
def Connective.required : Connective → Nat → Nat
  | .all, n => n
  | .any, _ => 1
  | .atLeast k, _ => k

/-- A formula over statements. The order of children is part of it. -/
inductive Proposition
  /-- A settled truth value. -/
  | trivial (b : Bool)
  | leaf (s : Statement)
  | node (c : Connective) (children : List Proposition)

namespace Proposition

/-- Knowledge of the discrete logarithm of `y`. -/
def dlog (y : PointName) : Proposition := .leaf (.dlog y)

/-- Knowledge of the exponent of a Diffie–Hellman tuple. -/
def dhTuple (g h u v : PointName) : Proposition := .leaf (.dhTuple g h u v)

mutual

/-- Decides whether two propositions are the same tree. -/
def decEq : (a b : Proposition) → Decidable (a = b)
  | .trivial a, .trivial b => if h : a = b then isTrue (h ▸ rfl) else isFalse (by simpa using h)
  | .leaf a, .leaf b => if h : a = b then isTrue (h ▸ rfl) else isFalse (by simpa using h)
  | .node c as, .node d bs =>
    match (inferInstance : Decidable (c = d)), decEqAll as bs with
    | isTrue h, isTrue h' => isTrue (by rw [h, h'])
    | isFalse h, _ => isFalse (by simp [h])
    | _, isFalse h => isFalse (by simp [h])
  | .trivial _, .leaf _ | .trivial _, .node _ _ | .leaf _, .trivial _ | .leaf _, .node _ _
  | .node _ _, .trivial _ | .node _ _, .leaf _ => isFalse (by simp)

/-- Decides whether two lists of propositions are the same. -/
def decEqAll : (as bs : List Proposition) → Decidable (as = bs)
  | [], [] => isTrue rfl
  | a :: as, b :: bs =>
    match decEq a b, decEqAll as bs with
    | isTrue h, isTrue h' => isTrue (by rw [h, h'])
    | isFalse h, _ => isFalse (by simp [h])
    | _, isFalse h => isFalse (by simp [h])
  | [], _ :: _ | _ :: _, [] => isFalse (by simp)

end

instance : DecidableEq Proposition := decEq

/-- The truth value of a settled proposition. -/
def settled? : Proposition → Option Bool
  | .trivial b => some b
  | _ => none

mutual

/-- Depth of the deepest node; the root is at depth zero. -/
def depth : Proposition → Nat
  | .trivial _ => 0
  | .leaf _ => 0
  | .node _ cs => depthAll cs

/-- One more than the depth of the deepest of some children; zero without children. -/
def depthAll : List Proposition → Nat
  | [] => 0
  | c :: cs => max (c.depth + 1) (depthAll cs)

end

mutual

/-- Number of nodes. -/
def size : Proposition → Nat
  | .trivial _ => 1
  | .leaf _ => 1
  | .node _ cs => 1 + sizeAll cs

/-- Number of nodes of some subtrees. -/
def sizeAll : List Proposition → Nat
  | [] => 0
  | c :: cs => c.size + sizeAll cs

end

/-- The children of a node. -/
def children : Proposition → List Proposition
  | .trivial _ => []
  | .leaf _ => []
  | .node _ cs => cs

theorem sizeAll_cons (p : Proposition) (ps : List Proposition) :
    sizeAll (p :: ps) = p.size + sizeAll ps := rfl

theorem sizeAll_append (ps qs : List Proposition) :
    sizeAll (ps ++ qs) = sizeAll ps + sizeAll qs := by
  induction ps with
  | nil => exact (Nat.zero_add _).symm
  | cons p ps ih => rw [List.cons_append, sizeAll_cons, ih, sizeAll_cons, Nat.add_assoc]

theorem sizeAll_reverse (ps : List Proposition) : sizeAll ps.reverse = sizeAll ps := by
  induction ps with
  | nil => rfl
  | cons p ps ih =>
    rw [List.reverse_cons, sizeAll_append, ih, sizeAll_cons, Nat.add_comm]
    rfl

/-- A node is one more than its children. -/
theorem size_eq (p : Proposition) : p.size = 1 + sizeAll p.children := by
  cases p <;> rfl

mutual

/-- The statements from left to right. -/
def leaves : Proposition → List Statement
  | .trivial _ => []
  | .leaf s => [s]
  | .node _ cs => leavesAll cs

/-- The statements of some children from left to right. -/
def leavesAll : List Proposition → List Statement
  | [] => []
  | c :: cs => c.leaves ++ leavesAll cs

end

/-! ## Building with settled children folded away -/

/-- The children that are not settled. -/
def unsettled (cs : List Proposition) : List Proposition := cs.filter fun c => c.settled? == none

/-- The conjunction of some propositions. -/
def allOf (cs : List Proposition) : Proposition :=
  if cs.any fun c => c.settled? == some false then .trivial false
  else
    match unsettled cs with
    | [] => .trivial true
    | [c] => c
    | kept => .node .all kept

/-- The disjunction of some propositions. -/
def anyOf (cs : List Proposition) : Proposition :=
  if cs.any fun c => c.settled? == some true then .trivial true
  else
    match unsettled cs with
    | [] => .trivial false
    | [c] => c
    | kept => .node .any kept

/-- At least `k` of some propositions; each true child counts towards `k`. -/
def atLeast (k : Nat) (cs : List Proposition) : Proposition :=
  let k := k - cs.countP fun c => c.settled? == some true
  let kept := unsettled cs
  if k = 0 then .trivial true
  else if kept.length < k then .trivial false
  else if k = kept.length then allOf kept
  else if k = 1 then anyOf kept
  else .node (.atLeast k) kept

end Proposition

/-! ## Rules of provable trees -/

/-- Most children a node may have. -/
def maxChildren : Nat := 255

/-- Deepest nesting of a node. -/
def maxDepth : Nat := 110

/-- A broken rule of a tree, or a tree that a proof leaves unfinished. -/
inductive TreeDefect
  | tooDeep | trivialBelowRoot | trivialInTree | thresholdAboveCount | noChildren | tooManyChildren
  | simulatedWithoutChallenge | disjunctionWithoutReal | leafWithoutCommitment
  | disjunctWithoutChallenge
deriving DecidableEq, Repr

/-- The wording of a broken rule. -/
def TreeDefect.text : TreeDefect → String
  | tooDeep => "proposition nested too deeply"
  | trivialBelowRoot => "nested trivial proposition"
  | trivialInTree => "trivial proposition inside a tree"
  | thresholdAboveCount => "threshold exceeds number of children"
  | noChildren => "connective without children"
  | tooManyChildren => "too many children"
  | simulatedWithoutChallenge => "simulated node without challenge"
  | disjunctionWithoutReal => "real disjunction without real child"
  | leafWithoutCommitment => "leaf without commitment"
  | disjunctWithoutChallenge => "disjunct without challenge"

/-- The wording of the failure a broken rule causes. -/
def TreeDefect.message (d : TreeDefect) : String := "Malformed proposition tree: " ++ d.text

namespace Proposition

/-- Checks what a node with so many children must obey on its own. -/
def checkNode (c : Connective) (n : Nat) : Except TreeDefect Unit :=
  match c with
  | .atLeast k => if n < k then .error .thresholdAboveCount else checkCount
  | _ => checkCount
where
  /-- A node has at least one child and at most `maxChildren`. -/
  checkCount : Except TreeDefect Unit :=
    if n = 0 then .error .noChildren
    else if maxChildren < n then .error .tooManyChildren
    else .ok ()

mutual

/-- Checks a subtree at a given depth: a node before its children, and later children first. -/
def checkFrom (depth : Nat) : Proposition → Except TreeDefect Unit
  | .trivial _ => if maxDepth < depth then .error .tooDeep else .error .trivialBelowRoot
  | .leaf _ => if maxDepth < depth then .error .tooDeep else .ok ()
  | .node c cs => do
    if maxDepth < depth then throw .tooDeep
    checkNode c cs.length
    checkAllFrom (depth + 1) cs

/-- Checks subtrees at a given depth, the last one first. -/
def checkAllFrom (depth : Nat) : List Proposition → Except TreeDefect Unit
  | [] => .ok ()
  | c :: cs => do
    checkAllFrom depth cs
    checkFrom depth c

end

/-- Some subtrees with the depth at which their roots are. -/
def atDepth (depth : Nat) (cs : List Proposition) : List (Proposition × Nat) :=
  cs.map fun c => (c, depth)

theorem map_fst_atDepth (depth : Nat) (cs : List Proposition) :
    (atDepth depth cs).map Prod.fst = cs := by
  simp [atDepth, Function.comp_def]

/-- Checks the nodes on a stack, each at its depth, and those below them.  Children are put onto the
stack in their order, so the last one comes first. -/
@[semireducible] def checkStack : List (Proposition × Nat) → Except TreeDefect Unit
  | [] => .ok ()
  | (p, depth) :: stack =>
    if maxDepth < depth then .error .tooDeep
    else
      match p with
      | .trivial _ => .error .trivialBelowRoot
      | .leaf _ => checkStack stack
      | .node c cs => do
        checkNode c cs.length
        -- the order decides which of two broken rules is reported
        checkStack ((atDepth (depth + 1) cs).reverse ++ stack)
termination_by stack => sizeAll (stack.map Prod.fst)
decreasing_by
  · exact Nat.lt_add_of_pos_left Nat.one_pos
  · rw [List.map_append, List.map_reverse, map_fst_atDepth, sizeAll_append, sizeAll_reverse,
      List.map_cons, sizeAll_cons, size]
    omega

/-- Checks the rules of provable trees: settled values only at the root, between one and
`maxChildren` children, thresholds no larger than their number, and no node below `maxDepth`. -/
def validate (p : Proposition) : Except TreeDefect Unit :=
  match p with
  | .trivial _ => .ok ()
  | p => checkStack [(p, 0)]

/-! ## Measures taken from a stack -/

/-- The greatest depth among the nodes on a stack, each at its depth, and those below them; `greatest`
when none of them is deeper.  Children are put onto the stack in their order, so the last one comes
first. -/
@[semireducible] def depthStack (greatest : Nat) : List (Proposition × Nat) → Nat
  | [] => greatest
  | (p, depth) :: stack =>
    depthStack (max greatest depth) ((atDepth (depth + 1) p.children).reverse ++ stack)
termination_by stack => sizeAll (stack.map Prod.fst)
decreasing_by
  simp only [List.map_append, List.map_reverse, map_fst_atDepth, sizeAll_append, sizeAll_reverse,
    List.map_cons, sizeAll_cons, size_eq p]
  omega

/-- The statements on a stack of subtrees and below them.  Children are put onto the stack so that
the first one comes first. -/
@[semireducible] def leavesStack : List Proposition → List Statement
  | [] => []
  | .trivial _ :: stack => leavesStack stack
  | .leaf s :: stack => s :: leavesStack stack
  | .node _ cs :: stack => leavesStack (cs ++ stack)
termination_by stack => sizeAll stack
decreasing_by
  · exact Nat.lt_add_of_pos_left Nat.one_pos
  · exact Nat.lt_add_of_pos_left Nat.one_pos
  · rw [sizeAll_append, sizeAll_cons, size]
    omega

end Proposition

/-! ## Encoding -/

/-- The octet that announces a statement. -/
def Statement.tag : Statement → UInt8
  | .dlog _ => 0x02
  | .dhTuple _ _ _ _ => 0x03

/-- The octet that announces a connective. -/
def Connective.tag : Connective → UInt8
  | .all => 0x04
  | .any => 0x05
  | .atLeast _ => 0x06

/-- A connective with the number of its children. -/
def Connective.pieces (c : Connective) (n : Nat) : List Piece :=
  match c with
  | .atLeast k => [.u8 "tag" c.tag, .size "k" k, .size "n" n]
  | _ => [.u8 "tag" c.tag, .size "n" n]

namespace Proposition

mutual

/-- The encoding: nodes in pre-order, each behind its tag. -/
def pieces : Proposition → List Piece
  | .trivial b => [.u8 "tag" (if b then 0x01 else 0x00)]
  | .leaf s => .u8 "tag" s.tag :: s.points
  | .node c cs => c.pieces cs.length ++ piecesAll cs

/-- The encodings of some propositions one after the other. -/
def piecesAll : List Proposition → List Piece
  | [] => []
  | c :: cs => c.pieces ++ piecesAll cs

end

/-- The binary form of a proposition. -/
def toBytes (p : Proposition) : Bytes := Piece.join p.pieces

variable [Suite]

/-- Reads a node, given how its children are read. -/
def nodeDecoder (child : Decoder Proposition) : Decoder Proposition := do
  match ← Decoder.u8 with
  | 0x00 => return .trivial false
  | 0x01 => return .trivial true
  | 0x02 => return .dlog (← Decoder.point)
  | 0x03 =>
    let g ← Decoder.point
    let h ← Decoder.point
    let u ← Decoder.point
    let v ← Decoder.point
    return .dhTuple g h u v
  | 0x04 => return .node .all (← children)
  | 0x05 => return .node .any (← children)
  | 0x06 =>
    let k ← Decoder.size
    -- any number is taken for a threshold: `validate` compares it with the count
    return .node (.atLeast k) (← children)
  | _ => Decoder.malformed .propositionTag
where
  /-- A count and that many children. -/
  children : Decoder (List Proposition) := do
    let n ← Decoder.size
    if maxChildren < n then Decoder.malformed .tooManyChildren
    Decoder.replicate n child

/-- Reads a proposition of at most so many levels. -/
def decoderWithin : Nat → Decoder Proposition
  | 0 => Decoder.malformed .propositionTooDeep
  | levels + 1 => nodeDecoder (decoderWithin levels)

/-- Reads a proposition; its deepest node is at most at depth `maxDepth`. -/
def decoder : Decoder Proposition := decoderWithin (maxDepth + 1)

/-- The proposition with the given binary form. -/
def ofBytes (b : Bytes) : Except CodecError Proposition := decoder.exactly b

end Proposition

end Covenant

/-
  STACKS — walking a tree from a stack is walking it by recursion.

  Validation and the listing of nodes both run on a stack of subtrees that are still to be visited,
  and they push children in opposite orders; so do the walks that measure the depth and collect the
  statements.  What one subtree on top of the stack contributes is what the recursive form computes
  for it, before anything below it on the stack is looked at (`checkStack_cons`, `depthStack_cons`,
  `leavesStack_cons`, `listStack_cons`); a whole walk is the case of a single subtree.
-/
import Covenant.Proof.Listing
import Covenant.Proofs.Outcome
import Mathlib.Tactic.Common

namespace Covenant.Proposition

/-! ## Checking -/

mutual

/-- A subtree on top of the stack is checked first, with all that is below it in the tree. -/
theorem checkStack_cons (d : Nat) (stack : List (Proposition × Nat)) : ∀ p : Proposition,
    checkStack ((p, d) :: stack) = (do checkFrom d p; checkStack stack)
  | .trivial b => by
    rw [checkStack, checkFrom]
    split <;> rfl
  | .leaf s => by
    rw [checkStack, checkFrom]
    split <;> rfl
  | .node c cs => by
    rw [checkStack, checkFrom]
    split
    · rfl
    · show (checkNode c cs.length >>= fun _ => _) = _
      rw [checkStack_reverse (d + 1) stack cs]
      cases checkNode c cs.length <;> rfl

/-- So are siblings on top of the stack, the last of them first. -/
theorem checkStack_reverse (d : Nat) (stack : List (Proposition × Nat)) :
    ∀ cs : List Proposition, checkStack ((atDepth d cs).reverse ++ stack) =
      (do checkAllFrom d cs; checkStack stack)
  | [] => rfl
  | c :: cs => by
    have hsplit : (atDepth d (c :: cs)).reverse ++ stack =
        (atDepth d cs).reverse ++ (c, d) :: stack := by simp [atDepth]
    rw [hsplit, checkStack_reverse d _ cs, checkStack_cons d stack c, checkAllFrom]
    cases checkAllFrom d cs <;> rfl

end

/-- Validation checks the tree from its root. -/
theorem validate_eq_checkFrom {p : Proposition} (hp : p.settled? = none) :
    p.validate = checkFrom 0 p := by
  have hstack : checkStack [(p, 0)] = checkFrom 0 p := by
    rw [checkStack_cons]
    cases hcheck : checkFrom 0 p with
    | error e => rfl
    | ok u => exact checkStack.eq_1
  cases p with
  | trivial b => cases hp
  | leaf s | node c cs => exact hstack

/-! ## Measuring -/

mutual

/-- A subtree on top of the stack counts with its deepest node. -/
theorem depthStack_cons (d : Nat) (stack : List (Proposition × Nat)) :
    ∀ (p : Proposition) (m : Nat),
      depthStack m ((p, d) :: stack) = depthStack (max m (d + p.depth)) stack
  | .trivial b, m => by
    rw [depthStack]
    rfl
  | .leaf s, m => by
    rw [depthStack]
    rfl
  | .node c cs, m => by
    rw [depthStack]
    exact depthStack_reverse d stack cs m

/-- Children on top of the stack count with the deepest node below their parent. -/
theorem depthStack_reverse (d : Nat) (stack : List (Proposition × Nat)) :
    ∀ (cs : List Proposition) (m : Nat),
      depthStack (max m d) ((atDepth (d + 1) cs).reverse ++ stack) =
        depthStack (max m (d + depthAll cs)) stack
  | [], m => rfl
  | c :: cs, m => by
    have hsplit : (atDepth (d + 1) (c :: cs)).reverse ++ stack =
        (atDepth (d + 1) cs).reverse ++ (c, d + 1) :: stack := by simp [atDepth]
    have hmax : max (max m (d + depthAll cs)) (d + 1 + c.depth) =
        max m (d + depthAll (c :: cs)) := by
      simp only [depthAll]
      omega
    rw [hsplit, depthStack_reverse d _ cs, depthStack_cons (d + 1) stack c, hmax]

end

/-- Measuring a tree from a stack finds its depth. -/
theorem depthStack_eq (p : Proposition) : depthStack 0 [(p, 0)] = p.depth := by
  rw [depthStack_cons, depthStack]
  omega

mutual

/-- The statements of a subtree on top of the stack come first. -/
theorem leavesStack_cons (stack : List Proposition) : ∀ p : Proposition,
    leavesStack (p :: stack) = p.leaves ++ leavesStack stack
  | .trivial b => by
    rw [leavesStack]
    rfl
  | .leaf s => by
    rw [leavesStack]
    rfl
  | .node c cs => by
    rw [leavesStack]
    exact leavesStack_append stack cs

/-- So do those of siblings on top of the stack, the first of them first. -/
theorem leavesStack_append (stack : List Proposition) : ∀ cs : List Proposition,
    leavesStack (cs ++ stack) = leavesAll cs ++ leavesStack stack
  | [] => rfl
  | c :: cs => by
    rw [List.cons_append, leavesStack_cons (cs ++ stack) c, leavesStack_append stack cs, leavesAll,
      List.append_assoc]

end

/-- Collecting statements from a stack finds the leaves. -/
theorem leavesStack_eq (p : Proposition) : leavesStack [p] = p.leaves := by
  rw [leavesStack_cons, leavesStack, List.append_nil]

/-! ## Listing -/

theorem length_adopt (parent : Option Nat) (js : List Nat) (nodes : List ListedNode) :
    (adopt parent js nodes).length = nodes.length := by
  cases parent <;> simp [adopt]

theorem length_addNode (nodes : List ListedNode) (kind : NodeKind) (parent : Option Nat) :
    (addNode nodes kind parent).length = nodes.length + 1 := by
  simp [addNode, length_adopt]

theorem adopt_nil (parent : Option Nat) (nodes : List ListedNode) :
    adopt parent [] nodes = nodes := by
  cases parent with
  | none => rfl
  | some i =>
    have hsame : (fun n : ListedNode => { n with children := n.children ++ [] }) = id := by
      funext n
      simp
    rw [adopt, hsame, List.modify_id]

/-- Children that arrive one after the other are the children that arrive together. -/
theorem adopt_append {i : Nat} {nodes : List ListedNode} (hi : i < nodes.length)
    (js ks : List Nat) (more : List ListedNode) :
    adopt (some i) ks (adopt (some i) js nodes ++ more) =
      adopt (some i) (js ++ ks) nodes ++ more := by
  refine List.ext_getElem? fun k => ?_
  simp only [adopt, List.getElem?_modify, List.getElem?_append, List.length_modify]
  by_cases hk : k < nodes.length
  · simp only [hk, if_pos]
    by_cases hik : i = k
    · subst hik
      simp [Function.comp_def]
    · simp [hik]
  · have hik : i ≠ k := by omega
    simp [hk, hik]

/-- The node that was added last takes in its children. -/
theorem adopt_addNode (nodes : List ListedNode) (kind : NodeKind) (parent : Option Nat)
    (js : List Nat) : adopt (some nodes.length) js (addNode nodes kind parent) =
      adopt parent [nodes.length] nodes ++ [⟨kind, parent, js⟩] := by
  have hlen : (adopt parent [nodes.length] nodes).length = nodes.length := length_adopt parent _ _
  rw [addNode]
  generalize adopt parent [nodes.length] nodes = linked at hlen
  rw [← hlen]
  refine List.ext_getElem? fun k => ?_
  simp only [adopt, List.getElem?_modify, List.getElem?_append]
  by_cases hk : k < linked.length
  · have hne : linked.length ≠ k := by omega
    simp [hk, hne]
  · obtain ⟨j, rfl⟩ := Nat.exists_eq_add_of_le (Nat.le_of_not_lt hk)
    cases j <;> simp

mutual

/-- A listing has one entry for every node. -/
theorem length_of_listFrom {d i : Nat} {parent : Option Nat} : ∀ {p : Proposition}
    {ns : List ListedNode}, listFrom d i parent p = .ok ns → ns.length = p.size
  | .trivial b, ns, h => by
    simp only [listFrom] at h
    split at h <;> cases h
  | .leaf s, ns, h => by
    simp only [listFrom] at h
    split at h <;> cases h
    rfl
  | .node c cs, ns, h => by
    simp only [listFrom, Outcome.check_eq_ok, Outcome.bind_eq_ok] at h
    obtain ⟨-, -, -, below, hbelow, h⟩ := h
    cases h
    rw [List.length_cons, length_of_listAllFrom hbelow, size, Nat.add_comm]

theorem length_of_listAllFrom {d i parent : Nat} : ∀ {cs : List Proposition}
    {ns : List ListedNode}, listAllFrom d i parent cs = .ok ns → ns.length = sizeAll cs
  | [], ns, h => by
    cases h
    rfl
  | c :: cs, ns, h => by
    simp only [listAllFrom, Outcome.bind_eq_ok] at h
    obtain ⟨first, hfirst, rest, hrest, h⟩ := h
    cases h
    rw [List.length_append, length_of_listFrom hfirst, length_of_listAllFrom hrest, sizeAll]

end

mutual

/-- A subtree on top of the stack is listed first: its nodes follow those that are listed, and its
parent takes in its root. -/
theorem listStack_cons (d : Nat) (parent : Option Nat)
    (stack : List (Proposition × Option Nat × Nat)) : ∀ (p : Proposition) (nodes : List ListedNode),
    listStack nodes ((p, parent, d) :: stack) = (do
      let below ← listFrom d nodes.length parent p
      listStack (adopt parent [nodes.length] nodes ++ below) stack)
  | .trivial b, nodes => by
    rw [listStack, listFrom]
    split <;> rfl
  | .leaf s, nodes => by
    rw [listStack, listFrom]
    split <;> rfl
  | .node c cs, nodes => by
    rw [listStack, listFrom]
    split
    · rfl
    · have hlast : nodes.length < (addNode nodes (.inner c) parent).length := by
        rw [length_addNode]; omega
      -- the children are pushed in front of the stack, and listed before the loop comes back to it
      have hbelow := listStack_append (d + 1) stack hlast cs
      simp only [length_addNode, adopt_addNode, List.append_assoc, List.singleton_append] at hbelow
      simp only [hbelow]
      cases checkNode c cs.length with
      | error e => rfl
      | ok u =>
        cases hlist : listAllFrom (d + 1) (nodes.length + 1) nodes.length cs <;> rfl

/-- So are siblings on top of the stack, the first of them first. -/
theorem listStack_append {i : Nat} (d : Nat) (stack : List (Proposition × Option Nat × Nat)) :
    ∀ {nodes : List ListedNode} (_ : i < nodes.length) (cs : List Proposition),
    listStack nodes (underParent (some i) d cs ++ stack) = (do
      let below ← listAllFrom d nodes.length i cs
      listStack (adopt (some i) (siblings nodes.length cs) nodes ++ below) stack)
  | nodes, _, [] => by
    simp [underParent, listAllFrom, siblings, adopt_nil]
  | nodes, hi, c :: cs => by
    have hsplit : underParent (some i) d (c :: cs) ++ stack =
        (c, some i, d) :: (underParent (some i) d cs ++ stack) := rfl
    rw [hsplit, listStack_cons d (some i) _ c nodes, listAllFrom]
    cases hfirst : listFrom d nodes.length (some i) c with
    | error e => rfl
    | ok first =>
      -- the loop has listed the first child, so the next one gets the number behind it
      have hlen : (adopt (some i) [nodes.length] nodes ++ first).length =
          nodes.length + c.size := by
        rw [List.length_append, length_adopt, length_of_listFrom hfirst]
      have hrest := listStack_append d stack (i := i) (by rw [hlen]; omega) cs
      rw [Outcome.ok_bind, hrest, hlen, adopt_append hi]
      cases listAllFrom d (nodes.length + c.size) i cs with
      | error e => rfl
      | ok rest =>
        simp only [Outcome.ok_bind, siblings, List.append_assoc, List.singleton_append]
        rfl

end

/-- Listing a tree lists it from its root. -/
theorem listing_eq (p : Proposition) : p.listing = listFrom 0 0 none p := by
  rw [listing, listStack_cons, List.length_nil]
  cases listFrom 0 0 none p with
  | error e => rfl
  | ok ns => exact listStack.eq_1 ns

end Covenant.Proposition

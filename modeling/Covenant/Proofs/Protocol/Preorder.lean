/-
  PREORDER — a listing is the proposition, node by node.

  1. **Reading back** — following the children's numbers from a node yields its subtree
     (`LaidOut.treeAt_eq`), and the leaves of the listing are those of the proposition
     (`statements_of_listFrom`).
  2. **Chains of parents** — the nodes from which a node is reached by following parents are those of
     its subtree (`LaidOut.bounds_of_mem_ancestors`, `LaidOut.mem_ancestors_of_bounds`), and the
     longest chain is as long as the tree is deep (`LaidOut.isGreatest_chainLengths`).
  3. **`listing_faithful`** — all of it, for every proposition that can be listed.
-/
import Covenant.Proofs.Protocol.Numbering
import Mathlib.Order.Bounds.Basic

namespace Covenant

/-! ## Views of a listing -/

/-- The statement of a leaf. -/
def ListedNode.statement? (n : ListedNode) : Option Statement :=
  match n.kind with
  | .leaf s => some s
  | .inner _ => none

/-- The proposition below the node with number `i`, as the numbers of children tell it.  A child that
does not come after its parent is no part of a tree. -/
@[semireducible] def treeAt (ns : List ListedNode) (i : Nat) : Option Proposition :=
  if i < ns.length then
    match ns[i]? with
    | none => none
    | some ⟨.leaf s, _, _⟩ => some (.leaf s)
    | some ⟨.inner c, _, js⟩ =>
      (js.mapM fun j => if i < j then treeAt ns j else none).map (.node c)
  else none
termination_by ns.length - i

namespace Proposition

variable {ns : List ListedNode} {i j k : Nat} {parent : Option Nat} {p q : Proposition}

/-! ## Reading back -/

mutual

/-- What is laid out is read back. -/
theorem LaidOut.treeAt_eq : ∀ {p : Proposition} {i : Nat} {parent : Option Nat},
    LaidOut ns i parent p → treeAt ns i = some p
  | .leaf s, i, parent, h => by
    have hi := (List.getElem?_eq_some_iff.1 h).1
    rw [treeAt, if_pos hi, h]
  | .node c cs, i, parent, h => by
    have hi := (List.getElem?_eq_some_iff.1 h.1).1
    rw [treeAt, if_pos hi, h.1]
    show ((siblings (i + 1) cs).mapM fun j => if i < j then treeAt ns j else none).map (node c) = _
    rw [LaidOutAll.mapM_treeAt_eq h.2 (Nat.lt_succ_self i)]
    rfl

theorem LaidOutAll.mapM_treeAt_eq : ∀ {cs : List Proposition} {i parent : Nat},
    LaidOutAll ns i parent cs → parent < i →
      ((siblings i cs).mapM fun j => if parent < j then treeAt ns j else none) = some cs
  | [], i, parent, h, hlt => rfl
  | c :: cs, i, parent, h, hlt => by
    rw [siblings_cons, List.mapM_cons, if_pos hlt, LaidOut.treeAt_eq h.1,
      LaidOutAll.mapM_treeAt_eq h.2 (by omega)]
    rfl

end

mutual

/-- The leaves of a listing are those of the proposition. -/
theorem statements_of_listFrom {d i : Nat} {parent : Option Nat} : ∀ {p : Proposition}
    {ns : List ListedNode}, listFrom d i parent p = .ok ns →
      ns.filterMap ListedNode.statement? = p.leaves
  | .trivial b, ns, h => by
    simp only [listFrom] at h
    split at h <;> cases h
  | .leaf s, ns, h => by
    simp only [listFrom] at h
    split at h <;> cases h
    rfl
  | .node c cs, ns, h => by
    simp only [listFrom, Outcome.check_eq_ok, Outcome.bind_eq_ok] at h
    obtain ⟨-, -, -, below, hbelow, h⟩ := h
    cases h
    rw [leaves, ← statements_of_listAllFrom hbelow]
    rfl

theorem statements_of_listAllFrom {d i parent : Nat} : ∀ {cs : List Proposition}
    {ns : List ListedNode}, listAllFrom d i parent cs = .ok ns →
      ns.filterMap ListedNode.statement? = leavesAll cs
  | [], ns, h => by
    cases h
    rfl
  | c :: cs, ns, h => by
    simp only [listAllFrom, Outcome.bind_eq_ok] at h
    obtain ⟨first, hfirst, rest, hrest, h⟩ := h
    cases h
    rw [List.filterMap_append, statements_of_listFrom hfirst, statements_of_listAllFrom hrest,
      leavesAll]

end

/-! ## Chains of parents -/

/-- A node that is above another has the other among the places of its subtree. -/
theorem LaidOut.bounds_of_mem_ancestors (h : LaidOut ns 0 none p) (hq : p.subtrees[i]? = some q)
    (hk : k < p.size) (hmem : i ∈ k :: ancestors ns k) : i ≤ k ∧ k < i + q.size := by
  induction k using Nat.strongRecOn with
  | ind k ih =>
    rcases List.mem_cons.1 hmem with rfl | hmem
    · exact ⟨Nat.le_refl i, Nat.lt_add_of_pos_right (size_pos q)⟩
    · cases hm : parentAt ns k with
      | none =>
        rw [ancestors_of_parentAt_eq_none hm] at hmem
        cases hmem
      | some m =>
        obtain ⟨r, hr, hmk, hkm⟩ := h.parentAt_spec hk hm
        rw [ancestors_of_parentAt hm hmk] at hmem
        obtain ⟨him, hmi⟩ := ih m hmk (by omega) hmem
        have hnested := subtrees_nested hq hr him hmi
        exact ⟨by omega, by omega⟩

/-- From every place of a subtree its root is reached. -/
theorem LaidOut.mem_ancestors_of_bounds (h : LaidOut ns i parent q) (hik : i ≤ k)
    (hk : k < i + q.size) : i ∈ k :: ancestors ns k := by
  induction k using Nat.strongRecOn with
  | ind k ih =>
    rcases Nat.eq_or_lt_of_le hik with rfl | hlt
    · exact List.mem_cons_self
    · obtain ⟨j, r, -, hj, hmem⟩ := h.exists_parent hlt hk
      have hbounds := bounds_of_mem_siblings hmem
      rw [ancestors_of_parentAt hj (by omega)]
      exact List.mem_cons_of_mem _ (ih (i + j) (by omega) (by omega) (by omega))

/-- How many ancestors the nodes have that are numbered from `i` on, so many of them. -/
def chainLengths (ns : List ListedNode) (i n : Nat) : Set Nat :=
  {l | ∃ k, i ≤ k ∧ k < i + n ∧ (ancestors ns k).length = l}

theorem chainLengths_zero : chainLengths ns i 0 = ∅ := by
  refine Set.eq_empty_iff_forall_notMem.2 ?_
  rintro l ⟨k, hik, hk, -⟩
  omega

theorem chainLengths_one : chainLengths ns i 1 = {(ancestors ns i).length} := by
  ext l
  constructor
  · rintro ⟨k, hik, hk, rfl⟩
    obtain rfl : k = i := by omega
    rfl
  · rintro rfl
    exact ⟨i, Nat.le_refl i, Nat.lt_succ_self i, rfl⟩

theorem chainLengths_add (m n : Nat) :
    chainLengths ns i (m + n) = chainLengths ns i m ∪ chainLengths ns (i + m) n := by
  ext l
  constructor
  · rintro ⟨k, hik, hk, hl⟩
    rcases Nat.lt_or_ge k (i + m) with hlt | hge
    · exact .inl ⟨k, hik, hlt, hl⟩
    · exact .inr ⟨k, hge, by omega, hl⟩
  · rintro (⟨k, hik, hk, hl⟩ | ⟨k, hik, hk, hl⟩)
    · exact ⟨k, hik, by omega, hl⟩
    · exact ⟨k, by omega, by omega, hl⟩

mutual

/-- The longest chain of ancestors inside what is laid out is as long as the tree is deep. -/
theorem LaidOut.isGreatest_chainLengths : ∀ {p : Proposition} {i : Nat} {parent : Option Nat},
    LaidOut ns i parent p →
      IsGreatest (chainLengths ns i p.size) ((ancestors ns i).length + p.depth)
  | .leaf s, i, parent, h => by
    rw [size, chainLengths_one]
    exact isGreatest_singleton
  | .node c cs, i, parent, h => by
    rw [size, chainLengths_add, chainLengths_one]
    exact LaidOutAll.isGreatest_chainLengths h.2 (Nat.lt_succ_self i)

theorem LaidOutAll.isGreatest_chainLengths : ∀ {cs : List Proposition} {i parent : Nat},
    LaidOutAll ns i parent cs → parent < i →
      IsGreatest ({(ancestors ns parent).length} ∪ chainLengths ns i (sizeAll cs))
        ((ancestors ns parent).length + depthAll cs)
  | [], i, parent, h, hlt => by
    rw [sizeAll, chainLengths_zero, Set.union_empty]
    exact isGreatest_singleton
  | c :: cs, i, parent, h, hlt => by
    have hfirst := LaidOut.isGreatest_chainLengths h.1
    have hrest := LaidOutAll.isGreatest_chainLengths h.2 (by omega)
    rw [ancestors_of_parentAt h.1.parentAt_eq hlt, List.length_cons] at hfirst
    -- the longest chain below is in the first child's part or in its siblings'
    have hdepth : max ((ancestors ns parent).length + 1 + c.depth)
        ((ancestors ns parent).length + depthAll cs) =
        (ancestors ns parent).length + depthAll (c :: cs) := by
      rw [depthAll]
      omega
    rw [sizeAll_cons, chainLengths_add, Set.union_left_comm, ← hdepth]
    exact hfirst.union hrest

end

/-! ## Faithful listings -/

/-- The nodes of a listing are the subtrees in pre-order. -/
theorem kinds_of_listing (h : p.listing = .ok ns) :
    (ns.map fun n => some n.kind) = p.subtrees.map kind? := by
  refine List.ext_getElem? fun i => ?_
  rw [List.getElem?_map, List.getElem?_map]
  cases hq : p.subtrees[i]? with
  | none =>
    rw [List.getElem?_eq_none_iff, length_subtrees, ← length_of_listing h] at hq
    rw [List.getElem?_eq_none hq]
    rfl
  | some q =>
    obtain ⟨kind, parent, hkind, hroot⟩ := node_of_listing h hq
    rw [hroot, Option.map_some, Option.map_some, hkind]

/-- **Listing is faithful.**  Of every proposition that can be listed,

  * the nodes are its subtrees in pre-order;
  * at the place of a subtree stands a node with one child number for each child of the subtree, in
    their order and upwards, all above the node's own; each leads to the child's subtree and to a node
    that names this one as its parent;
  * a subtree fills consecutive numbers: its own pre-order begins at its place, and the nodes that
    are below its root, or are it, have the numbers from this place on, as many as it has nodes;
  * the root has no parent and every other node has one;
  * reading the numbers of children from the root yields the proposition;
  * the statements of the leaves are those of the proposition, in order;
  * its depth is the number of parents in the longest chain of them. -/
theorem listing_faithful (h : p.listing = .ok ns) :
    (ns.map fun n => some n.kind) = p.subtrees.map kind? ∧
    (∀ i q, p.subtrees[i]? = some q → ∃ n, ns[i]? = some n ∧
      n.children.Pairwise (· < ·) ∧
      List.Forall₂ (fun k c => i < k ∧ parentAt ns k = some i ∧ p.subtrees[k]? = some c)
        n.children q.children ∧
      q.subtrees <+: p.subtrees.drop i ∧
      ∀ k < ns.length, i ∈ k :: ancestors ns k ↔ i ≤ k ∧ k < i + q.size) ∧
    (parentAt ns 0 = none ∧ ∀ k < ns.length, 0 < k → ∃ i n, parentAt ns k = some i ∧
      ns[i]? = some n ∧ k ∈ n.children) ∧
    treeAt ns 0 = some p ∧
    (ns.filterMap ListedNode.statement? = leavesStack [p] ∧ leavesStack [p] = p.leaves) ∧
    IsGreatest {l | ∃ k < ns.length, (ancestors ns k).length = l} (depthStack 0 [(p, 0)]) ∧
    depthStack 0 [(p, 0)] = p.depth := by
  have hlaid := laidOut_of_listing h
  have hlen := length_of_listing h
  refine ⟨kinds_of_listing h, fun i q hq => ?_, ⟨hlaid.parentAt_eq, fun k hk hpos => ?_⟩,
    hlaid.treeAt_eq, ⟨?_, leavesStack_eq p⟩, ?_, depthStack_eq p⟩
  · obtain ⟨above, hsub⟩ := hlaid.subtree hq
    rw [Nat.zero_add] at hsub
    obtain ⟨kind, parent, -, hroot⟩ := node_of_listing h hq
    refine ⟨_, hroot, pairwise_siblings _ _, hlaid.children hq, subtrees_consecutive hq,
      fun k hk => ?_⟩
    exact ⟨hlaid.bounds_of_mem_ancestors hq (hlen ▸ hk),
      fun hbounds => hsub.mem_ancestors_of_bounds hbounds.1 hbounds.2⟩
  · exact exists_parent_of_listing h hpos hk
  · rw [leavesStack_eq]
    exact statements_of_listFrom (listing_eq p ▸ h)
  · -- the root has no ancestors, so chains are as long as their depth
    have hgreatest := hlaid.isGreatest_chainLengths
    rw [ancestors_of_parentAt_eq_none hlaid.parentAt_eq, List.length_nil, Nat.zero_add, ← hlen]
      at hgreatest
    rw [depthStack_eq]
    simpa [chainLengths] using hgreatest

/-- Six leaves, below connectives of all three kinds. -/
def sixLeaves : Proposition :=
  .node .any [.node .all [numbered 1, numbered 2],
    .node (.atLeast 1) [numbered 3, numbered 4, numbered 5], numbered 6]

/-- Its nine nodes. -/
theorem listing_faithful_sixLeaves : ∃ ns, sixLeaves.listing = .ok ns ∧
    ns.map ListedNode.children = [[1, 4, 8], [2, 3], [], [], [5, 6, 7], [], [], [], []] ∧
    ns.map ListedNode.parent =
      [none, some 0, some 1, some 1, some 0, some 4, some 4, some 4, some 0] ∧
    (∀ k < ns.length, 4 ∈ k :: ancestors ns k ↔ 4 ≤ k ∧ k < 8) ∧
    treeAt ns 0 = some sixLeaves ∧ ns.filterMap ListedNode.statement? = sixLeaves.leaves ∧
    IsGreatest {l | ∃ k < ns.length, (ancestors ns k).length = l} 2 := by
  obtain ⟨ns, h, hchildren, hparents⟩ : ∃ ns, sixLeaves.listing = .ok ns ∧
      ns.map ListedNode.children = [[1, 4, 8], [2, 3], [], [], [5, 6, 7], [], [], [], []] ∧
      ns.map ListedNode.parent =
        [none, some 0, some 1, some 1, some 0, some 4, some 4, some 4, some 0] :=
    ⟨_, rfl, rfl, rfl⟩
  obtain ⟨-, hnodes, -, htree, ⟨hleaves, hall⟩, hdepth, -⟩ := listing_faithful h
  obtain ⟨n, -, -, -, -, hplaces⟩ :=
    hnodes 4 (.node (.atLeast 1) [numbered 3, numbered 4, numbered 5]) rfl
  exact ⟨ns, h, hchildren, hparents, hplaces, htree, hleaves.trans hall, hdepth⟩

end Proposition

end Covenant

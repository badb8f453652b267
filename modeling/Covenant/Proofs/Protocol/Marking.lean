/-
  MARKING — the two passes over a listing select an exact witness.

  The prover rewrites one list of marks twice: backwards, so that a node is marked after its
  children, and forwards, so that a node is settled before its children are thinned out.

  1. **Backwards** — once the pass has come down to a number, all nodes from there on have the marks
     and secrets that `Plan.mark` gives their subtrees (`Marks.Found`).  One node keeps this
     (`Found.markNode`), since its children come after it.
  2. **Choosing** — which of some marks are left when the first few real ones are kept
     (`Marks.KeepsFirst`): as many as there are up to the budget, and none that was not real.
  3. **Forwards** — once the pass has come up to a number, the children of every node before it are
     those chosen by the node's mark, and nodes whose parent is still ahead are untouched
     (`Marks.Thinned`).  One node keeps this (`Thinned.polishNode`), since a node is the child of
     one other only and comes after it.
  4. **The plan** — what is read off the marks is the plan that recursion makes
     (`Plan.ofMarks_polish_find`).
  5. **`marking_exact`** — the first pass finds what is satisfied, and what the second leaves real is
     no more and no less than a proof needs (`Marks.Exact`).
-/
import Covenant.Proof.Prover
import Covenant.Proofs.Protocol.Numbering
import Covenant.Proofs.Suite.Residues

namespace Covenant

open Suite

section

variable [Suite] {resolve : Statement → Option Scalar} {p q : Proposition} {ns : List ListedNode}
  {m m' : Marks} {n : ListedNode} {i j k b : Nat} {js : List Nat}

namespace Marks

/-! ## Backwards -/

/-- All nodes from the number `k` on are marked, and the secrets of leaves are known. -/
structure Found (resolve : Statement → Option Scalar) (p : Proposition) (ns : List ListedNode)
    (k : Nat) (m : Marks) : Prop where
  length_known : m.known.length = ns.length
  length_real : m.real.length = ns.length
  real_eq : ∀ i q, k ≤ i → p.subtrees[i]? = some q → m.isReal i = (Plan.mark resolve q).isReal
  known_eq : ∀ i s, k ≤ i → p.subtrees[i]? = some (.leaf s) → m.known.getD i none = resolve s

theorem found_blank (h : p.listing = .ok ns) : Found resolve p ns ns.length (blank ns.length) where
  length_known := List.length_replicate
  length_real := List.length_replicate
  real_eq _ _ hi hq := absurd (Proposition.lt_length_of_listing h hq) (Nat.not_lt_of_le hi)
  known_eq _ _ hi hq := absurd (Proposition.lt_length_of_listing h hq) (Nat.not_lt_of_le hi)

theorem isReal_markNode_ne (hij : i ≠ j) :
    (m.markNode resolve n i).isReal j = m.isReal j := by
  rw [markNode]
  cases n.kind <;> simp [isReal, List.getElem?_set_ne hij]

theorem known_markNode_ne (hij : i ≠ j) :
    (m.markNode resolve n i).known.getD j none = m.known.getD j none := by
  rw [markNode]
  cases n.kind <;> simp [List.getElem?_set_ne hij]

/-- As many children are marked as their plans are real. -/
theorem countP_isReal {cs : List Proposition}
    (h : List.Forall₂ (fun j c => m.isReal j = (Plan.mark resolve c).isReal) js cs) :
    js.countP m.isReal = (Plan.markAll resolve cs).countP Plan.isReal := by
  induction h with
  | nil => rfl
  | cons hhead _ ih => rw [List.countP_cons, ih, hhead, Plan.markAll, List.countP_cons]

/-- The children of a subtree are marked as their plans are, when the pass has come down to them. -/
theorem Found.children (h : p.listing = .ok ns) (hm : Found resolve p ns k m) (hki : k ≤ i + 1)
    (hq : p.subtrees[i]? = some q) :
    List.Forall₂ (fun j c => m.isReal j = (Plan.mark resolve c).isReal)
      (Proposition.siblings (i + 1) q.children) q.children := by
  refine ((Proposition.laidOut_of_listing h).children hq).imp fun j c hj => ?_
  exact hm.real_eq j c (Nat.le_trans hki hj.1) hj.2.2

/-- A node is marked as its plan is, when its children are marked already. -/
theorem Found.isReal_markNode (h : p.listing = .ok ns) (hm : Found resolve p ns (k + 1) m)
    (hn : ns[k]? = some n) (hq : p.subtrees[k]? = some q) :
    (m.markNode resolve n k).isReal k = (Plan.mark resolve q).isReal ∧
      ∀ s, q = .leaf s → (m.markNode resolve n k).known.getD k none = resolve s := by
  have hk := (List.getElem?_eq_some_iff.1 hn).1
  obtain ⟨kind, parent, hkind, hnode⟩ := Proposition.node_of_listing h hq
  obtain rfl := Option.some.inj (hn.symm.trans hnode)
  cases q with
  | trivial b => cases hkind
  | leaf s =>
    cases hkind
    simp [markNode, isReal, Plan.mark, Plan.isReal, hm.length_real, hm.length_known, hk]
  | node c cs =>
    cases hkind
    -- children have higher numbers, so their marks are final already
    have hmarks : List.Forall₂ (fun j c => m.isReal j = (Plan.mark resolve c).isReal)
        (Proposition.siblings (k + 1) cs) cs := hm.children h (Nat.le_refl _) hq
    refine ⟨?_, nofun⟩
    simp [markNode, isReal, Plan.mark, Plan.isReal, hm.length_real, hk, countP_isReal hmarks,
      Plan.length_markAll, Proposition.children, hmarks.length_eq]

/-- Marking a node whose children are marked. -/
theorem Found.markNode (h : p.listing = .ok ns) (hm : Found resolve p ns (k + 1) m)
    (hn : ns[k]? = some n) : Found resolve p ns k (m.markNode resolve n k) where
  length_known := by
    rw [Marks.markNode]
    cases n.kind <;> simp [hm.length_known]
  length_real := by
    rw [Marks.markNode]
    cases n.kind <;> simp [hm.length_real]
  real_eq i q hi hq := by
    rcases Nat.eq_or_lt_of_le hi with rfl | hlt
    · exact (hm.isReal_markNode h hn hq).1
    · rw [isReal_markNode_ne (Nat.ne_of_lt hlt), hm.real_eq i q hlt hq]
  known_eq i s hi hq := by
    rcases Nat.eq_or_lt_of_le hi with rfl | hlt
    · exact (hm.isReal_markNode h hn hq).2 s rfl
    · rw [known_markNode_ne (Nat.ne_of_lt hlt), hm.known_eq i s hlt hq]

omit [Suite] in
/-- What a pass that has come to the number `k` finds there. -/
theorem drop_eq_cons {l : List ListedNode} (h : ns.drop k = n :: l) :
    ns[k]? = some n ∧ ns.drop (k + 1) = l := by
  constructor
  · rw [← Nat.add_zero k, ← List.getElem?_drop, h]
    rfl
  · rw [← List.drop_drop, h]
    rfl

/-- The pass over the nodes from the number `k` on. -/
theorem found_foldr (h : p.listing = .ok ns) : ∀ (l : List ListedNode) (k : Nat), ns.drop k = l →
    k ≤ ns.length → Found resolve p ns k
      ((l.zipIdx k).foldr (fun (n, i) m => m.markNode resolve n i) (blank ns.length))
  | [], k, hl, hk => by
    obtain rfl : k = ns.length := Nat.le_antisymm hk (List.drop_eq_nil_iff.1 hl)
    exact found_blank h
  | n :: l, k, hl, hk => by
    obtain ⟨hn, hl⟩ := drop_eq_cons hl
    have hk : k + 1 ≤ ns.length := (List.getElem?_eq_some_iff.1 hn).1
    exact (found_foldr h l (k + 1) hl hk).markNode h hn

/-- **The first pass** gives every node the mark of its plan. -/
theorem found_find (h : p.listing = .ok ns) : Found resolve p ns 0 (find resolve ns) :=
  found_foldr h ns 0 rfl (Nat.zero_le _)

/-- A real connective has enough real children. -/
theorem Found.required_le {c : Connective} {parent : Option Nat} (h : p.listing = .ok ns)
    (hm : Found resolve p ns 0 m) (hn : ns[i]? = some ⟨.inner c, parent, js⟩)
    (hreal : m.isReal i = true) : c.required js.length ≤ js.countP m.isReal := by
  obtain ⟨q, hq, hkind, hjs⟩ := Proposition.subtree_of_listing h hn
  cases q with
  | trivial b => cases hkind
  | leaf s => cases hkind
  | node d cs =>
    cases hkind
    obtain rfl : js = Proposition.siblings (i + 1) cs := hjs
    have hmarks : List.Forall₂ (fun j c => m.isReal j = (Plan.mark resolve c).isReal)
        (Proposition.siblings (i + 1) cs) cs := hm.children h (Nat.zero_le _) hq
    rw [hm.real_eq i _ (Nat.zero_le i) hq] at hreal
    have henough := of_decide_eq_true hreal
    rwa [← countP_isReal hmarks, Plan.length_markAll, ← hmarks.length_eq] at henough

/-! ## Choosing -/

/-- The new marks of some nodes are the old ones of the first `budget` real nodes, and no others. -/
inductive KeepsFirst (old new : Nat → Bool) : Nat → List Nat → Prop
  | nil (budget : Nat) : KeepsFirst old new budget []
  | keep {budget j : Nat} {js : List Nat} (hold : old j = true) (hnew : new j = true)
      (hrest : KeepsFirst old new budget js) : KeepsFirst old new (budget + 1) (j :: js)
  | drop {budget j : Nat} {js : List Nat} (hold : old j = false ∨ budget = 0) (hnew : new j = false)
      (hrest : KeepsFirst old new budget js) : KeepsFirst old new budget (j :: js)

section

variable {old old' new new' : Nat → Bool}

omit [Suite] in
theorem KeepsFirst.congr (h : KeepsFirst old new b js) (hold : ∀ j ∈ js, old j = old' j)
    (hnew : ∀ j ∈ js, new j = new' j) : KeepsFirst old' new' b js := by
  induction h with
  | nil b => exact .nil b
  | keep ho hn _ ih =>
    rw [List.forall_mem_cons] at hold hnew
    exact .keep (hold.1 ▸ ho) (hnew.1 ▸ hn) (ih hold.2 hnew.2)
  | drop ho hn _ ih =>
    rw [List.forall_mem_cons] at hold hnew
    exact .drop (hold.1 ▸ ho) (hnew.1 ▸ hn) (ih hold.2 hnew.2)

omit [Suite] in
/-- As many are kept as are real, up to the budget. -/
theorem KeepsFirst.countP_eq (h : KeepsFirst old new b js) :
    js.countP new = min b (js.countP old) := by
  induction h with
  | nil b => simp
  | keep ho hn _ ih =>
    simp only [List.countP_cons, ho, hn, ih, if_true]
    omega
  | drop ho hn _ ih =>
    simp only [List.countP_cons, hn, ih, Bool.false_eq_true, if_false]
    rcases ho with ho | rfl
    · simp [ho]
    · simp

omit [Suite] in
/-- Nothing becomes real that was not. -/
theorem KeepsFirst.of_new (h : KeepsFirst old new b js) :
    ∀ j ∈ js, new j = true → old j = true := by
  induction h with
  | nil b => simp
  | keep ho _ _ ih => exact List.forall_mem_cons.2 ⟨fun _ => ho, ih⟩
  | drop _ hn _ ih => exact List.forall_mem_cons.2 ⟨fun h => by simp [hn] at h, ih⟩

omit [Suite] in
/-- Without a budget nothing is kept. -/
theorem KeepsFirst.eq_false (h : KeepsFirst old new 0 js) : ∀ j ∈ js, new j = false := by
  have hnone : js.countP new = 0 := by
    rw [h.countP_eq, Nat.zero_min]
  intro j hj
  simpa using List.countP_eq_zero.1 hnone j hj

end

theorem isReal_giveUp_self (m : Marks) (j : Nat) : (m.giveUp j).isReal j = false := by
  by_cases hj : j < m.real.length
  · simp [giveUp, isReal, hj]
  · simp [giveUp, isReal, hj]

theorem isReal_giveUp_ne (hij : i ≠ j) : (m.giveUp i).isReal j = m.isReal j := by
  simp [giveUp, isReal, List.getElem?_set_ne hij]

theorem known_keepFirst : (m.keepFirst b js).known = m.known := by
  fun_induction keepFirst b js m with
  | case1 => rfl
  | case2 _ _ _ _ _ ih => exact ih
  | case3 _ _ _ _ _ ih => exact ih

/-- Only the nodes that are chosen from get new marks. -/
theorem isReal_keepFirst_of_notMem (hj : j ∉ js) : (m.keepFirst b js).isReal j = m.isReal j := by
  fun_induction keepFirst b js m with
  | case1 => rfl
  | case2 _ _ _ _ _ ih => exact ih (List.not_mem_of_not_mem_cons hj)
  | case3 _ _ i _ _ ih =>
    rw [ih (List.not_mem_of_not_mem_cons hj), isReal_giveUp_ne (List.ne_of_not_mem_cons hj).symm]

/-- Choosing from different nodes keeps the first real ones. -/
theorem keepsFirst_keepFirst (hjs : js.Nodup) :
    KeepsFirst m.isReal (m.keepFirst b js).isReal b js := by
  induction js generalizing b m with
  | nil => exact .nil b
  | cons j js ih =>
    obtain ⟨hj, hjs⟩ := List.nodup_cons.1 hjs
    rw [keepFirst]
    split
    · rename_i h
      obtain ⟨hreal, hb⟩ := Bool.and_eq_true_iff.1 h
      obtain ⟨b, rfl⟩ : ∃ b', b = b' + 1 := Nat.exists_eq_succ_of_ne_zero (by simpa using hb)
      -- a real child within the budget stays, and later steps do not come back to it
      exact .keep hreal ((isReal_keepFirst_of_notMem hj).trans hreal) (ih hjs)
    · rename_i h
      -- any other child is given up, and no later step is about it
      refine .drop (by cases hreal : m.isReal j <;> simp_all) ?_ ((ih hjs).congr ?_ fun _ _ => rfl)
      · rw [isReal_keepFirst_of_notMem hj, isReal_giveUp_self]
      · rintro i hi
        exact isReal_giveUp_ne fun hji => hj (hji ▸ hi)

/-! ## Forwards -/

/-- The children of the nodes before the number `k` are settled, and no other marks have changed. -/
structure Thinned (ns : List ListedNode) (m : Marks) (k : Nat) (m' : Marks) : Prop where
  known_eq : m'.known = m.known
  untouched : ∀ j, (∀ i n, ns[i]? = some n → j ∈ n.children → k ≤ i) → m'.isReal j = m.isReal j
  kept : ∀ i c parent js, i < k → ns[i]? = some ⟨.inner c, parent, js⟩ →
    KeepsFirst m.isReal m'.isReal (if m'.isReal i then c.required js.length else 0) js

omit [Suite] in
/-- A node is the child of one node only. -/
theorem parent_unique {n' : ListedNode} (h : p.listing = .ok ns) (hn : ns[i]? = some n)
    (hn' : ns[k]? = some n') (hj : j ∈ n.children) (hj' : j ∈ n'.children) : i = k := by
  have hi := ((Proposition.children_of_listing h hn).2 j hj).2
  have hk := ((Proposition.children_of_listing h hn').2 j hj').2
  exact Option.some.inj (hi.symm.trans hk)

/-- Settling the children of one node more. -/
theorem Thinned.polishNode (h : p.listing = .ok ns) (hm : Thinned ns m k m')
    (hn : ns[k]? = some n) : Thinned ns m (k + 1) (m'.polishNode n k) := by
  obtain ⟨kind, parent, js⟩ := n
  cases kind with
  | leaf s =>
    refine ⟨hm.known_eq, fun j hj => hm.untouched j fun i n hi hmem => ?_, ?_⟩
    · exact Nat.le_of_succ_le (hj i n hi hmem)
    · intro i c parent js hi hnode
      rcases Nat.lt_succ_iff_lt_or_eq.1 hi with hlt | rfl
      · exact hm.kept i c parent js hlt hnode
      · cases hn.symm.trans hnode
  | inner c =>
    obtain ⟨hnodup, hchild⟩ := Proposition.children_of_listing h hn
    have hother (j : Nat) (hj : j ∉ js) :
        (m'.polishNode ⟨.inner c, parent, js⟩ k).isReal j = m'.isReal j :=
      isReal_keepFirst_of_notMem hj
    refine ⟨known_keepFirst.trans hm.known_eq, fun j hj => ?_, ?_⟩
    · have hmem : j ∉ js := fun hmem => absurd (hj k _ hn hmem) (Nat.not_succ_le_self k)
      rw [hother j hmem]
      exact hm.untouched j fun i n hi hmem => Nat.le_of_succ_le (hj i n hi hmem)
    · intro i d above is hi hnode
      -- the marks of nodes up to `k` do not change any more
      have hmark : (m'.polishNode ⟨.inner c, parent, js⟩ k).isReal i = m'.isReal i := by
        refine hother i fun hmem => ?_
        have hlt := (hchild i hmem).1
        omega
      rw [hmark]
      rcases Nat.lt_succ_iff_lt_or_eq.1 hi with hlt | rfl
      · refine (hm.kept i d above is hlt hnode).congr (fun _ _ => rfl) fun j hj => ?_
        refine (hother j fun hmem => ?_).symm
        exact absurd (parent_unique h hnode hn hj hmem) (Nat.ne_of_lt hlt)
      · obtain ⟨⟩ := hn.symm.trans hnode
        refine (keepsFirst_keepFirst hnodup).congr (fun j hj => ?_) fun _ _ => rfl
        exact hm.untouched j fun l n hl hmem => Nat.le_of_eq (parent_unique h hn hl hj hmem)

/-- The pass over the nodes from the number `k` on. -/
theorem thinned_foldl (h : p.listing = .ok ns) : ∀ (l : List ListedNode) (k : Nat) (m' : Marks),
    ns.drop k = l → k ≤ ns.length → Thinned ns m k m' →
      Thinned ns m ns.length ((l.zipIdx k).foldl (fun m (n, i) => m.polishNode n i) m')
  | [], k, m', hl, hk, hm => by
    obtain rfl : k = ns.length := Nat.le_antisymm hk (List.drop_eq_nil_iff.1 hl)
    exact hm
  | n :: l, k, m', hl, hk, hm => by
    obtain ⟨hn, hl⟩ := drop_eq_cons hl
    have hk : k + 1 ≤ ns.length := (List.getElem?_eq_some_iff.1 hn).1
    exact thinned_foldl h l (k + 1) _ hl hk (hm.polishNode h hn)

/-- **The second pass** settles the children of every node. -/
theorem thinned_polish (h : p.listing = .ok ns) (m : Marks) :
    Thinned ns m ns.length (m.polish ns) :=
  thinned_foldl h ns 0 m rfl (Nat.zero_le _)
    ⟨rfl, fun _ _ => rfl, fun _ _ _ _ hi => absurd hi (Nat.not_lt_zero _)⟩

/-- The root is nobody's child. -/
theorem isReal_polish_zero (h : p.listing = .ok ns) (m : Marks) :
    (m.polish ns).isReal 0 = m.isReal 0 := by
  refine (thinned_polish h m).untouched 0 fun i n hn hmem => ?_
  have hlt := ((Proposition.children_of_listing h hn).2 0 hmem).1
  omega

/-- The children of a node after the second pass. -/
theorem keepsFirst_polish {c : Connective} {parent : Option Nat} (h : p.listing = .ok ns)
    (m : Marks) (hn : ns[i]? = some ⟨.inner c, parent, js⟩) :
    KeepsFirst m.isReal (m.polish ns).isReal
      (if (m.polish ns).isReal i then c.required js.length else 0) js :=
  (thinned_polish h m).kept i c parent js (List.getElem?_eq_some_iff.1 hn).1 hn

/-- Nothing becomes real in the second pass. -/
theorem isReal_of_polish (h : p.listing = .ok ns) (hreal : (m.polish ns).isReal j = true) :
    m.isReal j = true := by
  by_cases hchild : ∃ (i : Nat) (n : ListedNode), ns[i]? = some n ∧ j ∈ n.children
  · obtain ⟨i, n, hn, hmem⟩ := hchild
    obtain ⟨c, hc⟩ := Proposition.inner_of_mem_children h hn hmem
    obtain ⟨kind, parent, js⟩ := n
    cases hc
    exact (keepsFirst_polish h m hn).of_new j hmem hreal
  · rwa [(thinned_polish h m).untouched j fun i n hn hmem => absurd ⟨i, n, hn, hmem⟩ hchild]
      at hreal

/-- The children of a node that is not real are not real. -/
theorem isReal_polish_child (h : p.listing = .ok ns) (hn : ns[i]? = some n)
    (hreal : (m.polish ns).isReal i = false) (hj : j ∈ n.children) :
    (m.polish ns).isReal j = false := by
  obtain ⟨c, hc⟩ := Proposition.inner_of_mem_children h hn hj
  obtain ⟨kind, parent, js⟩ := n
  cases hc
  have hkept := keepsFirst_polish h m hn
  rw [hreal] at hkept
  exact hkept.eq_false j hj

/-- All ancestors of a real node are real. -/
theorem isReal_polish_ancestor (h : p.listing = .ok ns) (hreal : (m.polish ns).isReal j = true) :
    ∀ i ∈ ancestors ns j, (m.polish ns).isReal i = true := by
  -- on the number of the node, since its parent has a smaller one
  induction j using Nat.strongRecOn with
  | ind j ih =>
    intro i hi
    cases hk : parentAt ns j with
    | none =>
      rw [ancestors_of_parentAt_eq_none hk] at hi
      cases hi
    | some k =>
      obtain ⟨n, hn, hmem⟩ := Proposition.lists_of_parentAt h hk
      have hlt := ((Proposition.children_of_listing h hn).2 j hmem).1
      have hparent : (m.polish ns).isReal k = true := by
        by_contra hfalse
        rw [isReal_polish_child h hn (Bool.eq_false_iff.2 hfalse) hmem] at hreal
        cases hreal
      rw [ancestors_of_parentAt hk hlt] at hi
      rcases List.mem_cons.1 hi with rfl | hi
      · exact hparent
      · exact ih k hlt hparent i hi

end Marks

/-! ## The plan -/

namespace Plan

open Marks

mutual

/-- The plan of a subtree is read off the marks, when the mark of its root is that of the plan. -/
theorem ofMarks_eq (h : p.listing = .ok ns) (hm : Found resolve p ns 0 m) :
    ∀ {q : Proposition} {i : Nat} {keep : Bool}, p.subtrees[i]? = some q →
      (m.polish ns).isReal i = (m.isReal i && keep) →
        ofMarks (m.polish ns) i q = (mark resolve q).polish keep
  | .trivial b, i, keep, hq, hreal => by
    obtain ⟨kind, parent, hkind, -⟩ := Proposition.node_of_listing h hq
    cases hkind
  | .leaf s, i, keep, hq, hreal => by
    rw [hm.real_eq i _ (Nat.zero_le i) hq] at hreal
    rw [ofMarks, mark, polish, secret?, hreal, (thinned_polish h m).known_eq,
      hm.known_eq i s (Nat.zero_le i) hq, mark, isReal]
    cases resolve s <;> cases keep <;> rfl
  | .node c cs, i, keep, hq, hreal => by
    obtain ⟨kind, parent, hkind, hnode⟩ := Proposition.node_of_listing h hq
    cases hkind
    have hchildren := (Proposition.laidOut_of_listing h).children hq
    -- the budget of this node was spent on its first real children
    have hkept := keepsFirst_polish h m hnode
    have hlen : (Proposition.siblings (i + 1) cs).length = cs.length := hchildren.length_eq
    have hplan := hm.real_eq i _ (Nat.zero_le i) hq
    rw [mark, isReal] at hplan
    rw [ofMarks, mark, polish, ← hplan, ← hreal]
    congr 1
    refine ofMarksAll_eq h hm (hchildren.imp fun j c hj => hj.2.2) ?_
    rwa [length_markAll, ← hlen]

theorem ofMarksAll_eq (h : p.listing = .ok ns) (hm : Found resolve p ns 0 m) :
    ∀ {cs : List Proposition} {i b : Nat},
      List.Forall₂ (fun j c => p.subtrees[j]? = some c) (Proposition.siblings i cs) cs →
      KeepsFirst m.isReal (m.polish ns).isReal b (Proposition.siblings i cs) →
        ofMarksAll (m.polish ns) i cs = polishAll b (markAll resolve cs)
  | [], i, b, hplaces, hkept => rfl
  | c :: cs, i, b, hplaces, hkept => by
    obtain ⟨hplace, hplaces⟩ := List.forall₂_cons.1 hplaces
    have hplan := hm.real_eq i c (Nat.zero_le i) hplace
    rw [ofMarksAll, markAll, polishAll]
    -- along the children, one that is kept takes a unit of the budget
    cases hkept with
    | keep hold hnew hrest =>
      have hread : ofMarks (m.polish ns) i c = (mark resolve c).polish true :=
        ofMarks_eq h hm hplace (by simp [hold, hnew])
      rw [hplan] at hold
      rw [if_pos (by simp [hold]), hread, ofMarksAll_eq h hm hplaces hrest]
      rfl
    | drop hold hnew hrest =>
      have hread : ofMarks (m.polish ns) i c = (mark resolve c).polish false :=
        ofMarks_eq h hm hplace (by simp [hnew])
      rw [hplan] at hold
      rw [if_neg (by rcases hold with hold | rfl <;> simp [*]), hread,
        ofMarksAll_eq h hm hplaces hrest]

end

/-- **The plan read off the marks** is the one made by recursion. -/
theorem ofMarks_polish_find (h : p.listing = .ok ns) :
    ofMarks ((Marks.find resolve ns).polish ns) 0 p = (mark resolve p).polish true :=
  ofMarks_eq h (found_find h) (Proposition.getElem?_subtrees_zero p)
    ((isReal_polish_zero h _).trans (Bool.and_true _).symm)

end Plan

/-! ## Exact witnesses -/

/-- The real nodes of `kept` are no more and no less than a proof needs, and were real before. -/
structure Marks.Exact (resolve : Statement → Option Scalar) (ns : List ListedNode)
    (before kept : Marks) : Prop where
  root : kept.isReal 0 = true
  /-- A real connective has as many real children as it requires. -/
  required : ∀ i c parent js, ns[i]? = some ⟨.inner c, parent, js⟩ → kept.isReal i = true →
    js.countP kept.isReal = c.required js.length
  /-- A simulated node has simulated children. -/
  child : ∀ i n, ns[i]? = some n → kept.isReal i = false → ∀ j ∈ n.children, kept.isReal j = false
  /-- No real node is anywhere below a simulated one. -/
  above : ∀ j, kept.isReal j = true → ∀ i ∈ ancestors ns j, kept.isReal i = true
  /-- A real leaf has the secret that was found for it. -/
  secret : ∀ i s parent js, ns[i]? = some ⟨.leaf s, parent, js⟩ → kept.isReal i = true →
    ∃ x, resolve s = some x ∧ kept.secret? i = some x
  of_kept : ∀ i, kept.isReal i = true → before.isReal i = true

theorem Marks.Found.exact_polish (h : p.listing = .ok ns) (hm : Found resolve p ns 0 m)
    (hroot : m.isReal 0 = true) : Exact resolve ns m (m.polish ns) where
  root := (isReal_polish_zero h m).trans hroot
  required i c parent js hn hreal := by
    have henough := hm.required_le h hn (isReal_of_polish h hreal)
    rw [(keepsFirst_polish h m hn).countP_eq, if_pos hreal, Nat.min_eq_left henough]
  child i n hn hreal j hj := isReal_polish_child h hn hreal hj
  above j hreal := isReal_polish_ancestor h hreal
  secret i s parent js hn hreal := by
    obtain ⟨q, hq, hkind, -⟩ := Proposition.subtree_of_listing h hn
    obtain rfl : q = .leaf s := by
      cases q <;> cases hkind
      rfl
    -- what is still real was real, and then its secret was found
    have hmarked := isReal_of_polish h hreal
    rw [hm.real_eq i _ (Nat.zero_le i) hq] at hmarked
    obtain ⟨x, hx⟩ := Option.isSome_iff_exists.1 hmarked
    refine ⟨x, hx, ?_⟩
    rw [secret?, if_pos hreal, (thinned_polish h m).known_eq, hm.known_eq i s (Nat.zero_le i) hq,
      hx]
  of_kept i := isReal_of_polish h

/-- **Marking and polishing select an exact witness.**  A settled value has no nodes.  Of every
other valid proposition, whatever secrets there are, the first pass makes a node real exactly when
the secrets at hand satisfy its subtree; and when the root is real, what the second pass leaves real
is an exact witness. -/
theorem marking_exact (resolve : Statement → Option Scalar) (hvalid : p.validate = .ok ()) :
    (∃ b, p = .trivial b ∧ p.listing = .error .trivialInTree) ∨
    ∃ ns, p.listing = .ok ns ∧
      (∀ i q, p.subtrees[i]? = some q →
        ((Marks.find resolve ns).isReal i = true ↔
          q.satisfied (fun s => (resolve s).isSome) = true)) ∧
      ((Marks.find resolve ns).isReal 0 = true →
        Marks.Exact resolve ns (Marks.find resolve ns) ((Marks.find resolve ns).polish ns)) := by
  by_cases hp : p.NonTrivial
  · obtain ⟨ns, h⟩ := (Proposition.validate_iff_listing hp).1 hvalid
    have hfound : Marks.Found resolve p ns 0 (Marks.find resolve ns) := Marks.found_find h
    refine .inr ⟨ns, h, fun i q hq => ?_, hfound.exact_polish h⟩
    rw [hfound.real_eq i q (Nat.zero_le i) hq, Plan.isReal_mark resolve 0, Proposition.satisfied]
  · obtain ⟨b, rfl⟩ : ∃ b, p = .trivial b := by
      cases p with
      | trivial b => exact ⟨b, rfl⟩
      | leaf s => exact absurd rfl hp
      | node c cs => exact absurd rfl hp
    exact .inl ⟨b, rfl, rfl⟩

end

section

attribute [local instance] Suite.residues

open Proposition

/-- Two of three: a leaf, a choice of two leaves, and two leaves together. -/
def leafChoicePair : Proposition :=
  .node (.atLeast 2) [numbered 1, .node .any [numbered 2, numbered 3],
    .node .all [numbered 4, numbered 5]]

/-- All secrets but that of one leaf of the choice. -/
def allButSecond : Statement → Option Scalar
  | .dlog y => if y = Octets.ofNatLE 32 2 then none else some (ofNat 9)
  | _ => none

/-- All three are satisfied; the pair is not needed and is given up with its leaves. -/
theorem marking_exact_spareBranch : ∃ ns, leafChoicePair.listing = .ok ns ∧
    (Marks.find allButSecond ns).real = [true, true, true, false, true, true, true, true] ∧
    ((Marks.find allButSecond ns).polish ns).real =
      [true, true, true, false, true, false, false, false] ∧
    Marks.Exact allButSecond ns (Marks.find allButSecond ns)
      ((Marks.find allButSecond ns).polish ns) := by
  obtain ⟨ns, h, hfound, hkept⟩ : ∃ ns, leafChoicePair.listing = .ok ns ∧
      (Marks.find allButSecond ns).real = [true, true, true, false, true, true, true, true] ∧
      ((Marks.find allButSecond ns).polish ns).real =
        [true, true, true, false, true, false, false, false] :=
    ⟨_, rfl, by decide, by decide⟩
  obtain ⟨b, hb, -⟩ | ⟨ns', h', -, hexact⟩ := marking_exact (p := leafChoicePair) allButSecond rfl
  · cases hb
  · obtain rfl := Except.ok.inj (h.symm.trans h')
    exact ⟨ns, h, hfound, hkept, hexact (by rw [Marks.isReal, hfound]; rfl)⟩

end

end Covenant

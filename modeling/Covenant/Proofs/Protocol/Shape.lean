/-
  SHAPE — which propositions have a proof tree, and which secrets satisfy them.

  The rules of provable trees are checked twice: by `validate`, and while the nodes are listed for
  the transcript.  The two passes visit nodes in different orders and name different defects, but
  they accept the same trees.

  1. **Well-formed trees** — no settled value, between one and `maxChildren` children, no threshold
     above their number.  `checkFrom` accepts a well-formed tree that is not too deep
     (`checkFrom_eq_ok`), and `listFrom` accepts the same ones (`exists_listFrom_iff`).
  2. **Satisfaction** — a node holds when at least as many of its children hold as its connective
     requires (`satisfiedFrom`).  Leaves are told apart by their position, since one statement may
     stand at several places.
  3. **Marking** — the prover marks a node as real exactly when the secrets it finds satisfy it
     (`isReal_mark`).
-/
import Covenant.Proof.Prover
import Covenant.Proofs.Protocol.Stacks
import Mathlib.Tactic.Common

namespace Covenant

/-! ## Well-formed trees -/

/-- A node of this connective may have `n` children. -/
structure Connective.Allows (c : Connective) (n : Nat) : Prop where
  pos : 0 < n
  le_maxChildren : n ≤ maxChildren
  required_le : c.required n ≤ n

namespace Proposition

mutual

/-- No settled value stands in the tree and every node may have its children. -/
def WellFormed : Proposition → Prop
  | .trivial _ => False
  | .leaf _ => True
  | .node c cs => c.Allows cs.length ∧ WellFormedAll cs

/-- All subtrees are well-formed. -/
def WellFormedAll : List Proposition → Prop
  | [] => True
  | c :: cs => c.WellFormed ∧ WellFormedAll cs

end

theorem checkNode_eq_ok {c : Connective} {n : Nat} : checkNode c n = .ok () ↔ c.Allows n := by
  have hcount : checkNode.checkCount n = .ok () ↔ 0 < n ∧ n ≤ maxChildren := by
    unfold checkNode.checkCount
    grind
  constructor
  · intro h
    cases c with
    | all => exact ⟨(hcount.1 h).1, (hcount.1 h).2, Nat.le_refl n⟩
    | any => exact ⟨(hcount.1 h).1, (hcount.1 h).2, (hcount.1 h).1⟩
    | atLeast k =>
      simp only [checkNode] at h
      split at h
      · cases h
      · -- the threshold is compared before the children are counted
        rename_i hk
        exact ⟨(hcount.1 h).1, (hcount.1 h).2, Nat.not_lt.1 hk⟩
  · rintro ⟨hpos, hmax, hreq⟩
    cases c with
    | all | any => exact hcount.2 ⟨hpos, hmax⟩
    | atLeast k =>
      exact (if_neg (Nat.not_lt.2 hreq)).trans (hcount.2 ⟨hpos, hmax⟩)

/-- Bounding the depth of a node is bounding it for every child. -/
theorem add_depthAll_le {d : Nat} {cs : List Proposition} {m : Nat} :
    (d ≤ m ∧ ∀ c ∈ cs, d + 1 + c.depth ≤ m) ↔ d + depthAll cs ≤ m := by
  induction cs with
  | nil => simp [depthAll]
  | cons c cs ih =>
    have hdepth : d + depthAll (c :: cs) ≤ m ↔ d + 1 + c.depth ≤ m ∧ d + depthAll cs ≤ m := by
      simp only [depthAll]; omega
    rw [hdepth, ← ih, List.forall_mem_cons]
    tauto

mutual

/-- **What `validate` accepts** below the root: well-formed trees of bounded depth. -/
theorem checkFrom_eq_ok (d : Nat) : ∀ p : Proposition,
    checkFrom d p = .ok () ↔ p.WellFormed ∧ d + p.depth ≤ maxDepth
  | .trivial b => by
    simp only [checkFrom, WellFormed, false_and, iff_false]
    split <;> simp
  | .leaf s => by
    simp only [checkFrom, WellFormed, depth]
    split <;> simp <;> omega
  | .node c cs => by
    simp only [checkFrom, Outcome.check_eq_ok, Outcome.unit_bind_eq_ok, checkNode_eq_ok,
      checkAllFrom_eq_ok (d + 1) cs, Nat.not_lt, WellFormed, depth, ← add_depthAll_le]
    constructor
    · rintro ⟨hd, hallows, hall, hdepth⟩
      exact ⟨⟨hallows, hall⟩, hd, hdepth⟩
    · rintro ⟨⟨hallows, hall⟩, hd, hdepth⟩
      exact ⟨hd, hallows, hall, hdepth⟩

theorem checkAllFrom_eq_ok (d : Nat) : ∀ cs : List Proposition,
    checkAllFrom d cs = .ok () ↔ WellFormedAll cs ∧ ∀ c ∈ cs, d + c.depth ≤ maxDepth
  | [] => by simp [checkAllFrom, WellFormedAll]
  | c :: cs => by
    simp only [checkAllFrom, Outcome.unit_bind_eq_ok, checkAllFrom_eq_ok d cs,
      checkFrom_eq_ok d c, WellFormedAll, List.forall_mem_cons]
    constructor
    · rintro ⟨⟨hall, hdepth⟩, hc, hcdepth⟩
      exact ⟨⟨hc, hall⟩, hcdepth, hdepth⟩
    · rintro ⟨⟨hc, hall⟩, hcdepth, hdepth⟩
      exact ⟨⟨hall, hdepth⟩, hc, hcdepth⟩

end

mutual

/-- **What can be listed**: the same trees. -/
theorem exists_listFrom_iff (d i : Nat) (parent : Option Nat) : ∀ p : Proposition,
    (∃ ns, listFrom d i parent p = .ok ns) ↔ p.WellFormed ∧ d + p.depth ≤ maxDepth
  | .trivial b => by
    simp only [listFrom, WellFormed, false_and, iff_false]
    split <;> simp
  | .leaf s => by
    simp only [listFrom, WellFormed, depth]
    split <;> simp <;> omega
  | .node c cs => by
    simp only [listFrom, Outcome.check_eq_ok, Outcome.unit_bind_eq_ok, checkNode_eq_ok,
      Nat.not_lt, WellFormed, depth, ← add_depthAll_le]
    simp only [Outcome.bind_eq_ok]
    -- each check of the listing is one rule, and the depth is counted on the way down
    constructor
    · rintro ⟨_, hd, hallows, below, hbelow, -⟩
      obtain ⟨hall, hdepth⟩ := (exists_listAllFrom_iff (d + 1) (i + 1) i cs).1 ⟨below, hbelow⟩
      exact ⟨⟨hallows, hall⟩, hd, hdepth⟩
    · rintro ⟨⟨hallows, hall⟩, hd, hdepth⟩
      obtain ⟨below, hbelow⟩ := (exists_listAllFrom_iff (d + 1) (i + 1) i cs).2 ⟨hall, hdepth⟩
      exact ⟨_, hd, hallows, below, hbelow, rfl⟩

theorem exists_listAllFrom_iff (d i parent : Nat) : ∀ cs : List Proposition,
    (∃ ns, listAllFrom d i parent cs = .ok ns) ↔
      WellFormedAll cs ∧ ∀ c ∈ cs, d + c.depth ≤ maxDepth
  | [] => by simp [listAllFrom, WellFormedAll]
  | c :: cs => by
    simp only [listAllFrom, Outcome.bind_eq_ok, WellFormedAll, List.forall_mem_cons]
    constructor
    · rintro ⟨_, first, hfirst, rest, hrest, -⟩
      obtain ⟨hc, hcdepth⟩ := (exists_listFrom_iff d i (some parent) c).1 ⟨first, hfirst⟩
      obtain ⟨hall, hdepth⟩ := (exists_listAllFrom_iff d (i + c.size) parent cs).1 ⟨rest, hrest⟩
      exact ⟨⟨hc, hall⟩, hcdepth, hdepth⟩
    · rintro ⟨⟨hc, hall⟩, hcdepth, hdepth⟩
      obtain ⟨first, hfirst⟩ := (exists_listFrom_iff d i (some parent) c).2 ⟨hc, hcdepth⟩
      obtain ⟨rest, hrest⟩ := (exists_listAllFrom_iff d (i + c.size) parent cs).2 ⟨hall, hdepth⟩
      exact ⟨_, first, hfirst, rest, hrest, rfl⟩

end

/-- The proposition is not settled, so that validity speaks about its tree. -/
def NonTrivial (p : Proposition) : Prop := p.settled? = none

theorem validate_eq_ok {p : Proposition} (hp : p.NonTrivial) :
    p.validate = .ok () ↔ p.WellFormed ∧ p.depth ≤ maxDepth := by
  rw [validate_eq_checkFrom hp, checkFrom_eq_ok, Nat.zero_add]

/-- A tree passes validation exactly when it can be listed. -/
theorem validate_iff_listing {p : Proposition} (hp : p.NonTrivial) :
    p.validate = .ok () ↔ ∃ ns, p.listing = .ok ns := by
  rw [validate_eq_ok hp, listing_eq, exists_listFrom_iff, Nat.zero_add]

/-! ## Satisfaction -/

mutual

/-- Whether the leaves that `held` tells of satisfy the proposition.  It is told the position of a
leaf, counting leaves from left to right and from `i`, and its statement. -/
def satisfiedFrom (held : Nat → Statement → Bool) (i : Nat) : Proposition → Bool
  | .trivial b => b
  | .leaf s => held i s
  | .node c cs => decide (c.required cs.length ≤ countFrom held i cs)

/-- How many of some subtrees are satisfied. -/
def countFrom (held : Nat → Statement → Bool) (i : Nat) : List Proposition → Nat
  | [] => 0
  | c :: cs => (c.satisfiedFrom held i).toNat + countFrom held (i + c.leaves.length) cs

end

mutual

/-- What satisfies the proposition still does when more of its leaves are held. -/
theorem satisfiedFrom_mono {held held' : Nat → Statement → Bool} : ∀ {p : Proposition} {i : Nat},
    (∀ j s, p.leaves[j]? = some s → held (i + j) s → held' (i + j) s) →
      p.satisfiedFrom held i → p.satisfiedFrom held' i
  | .trivial _, _, _, hsat => hsat
  | .leaf s, _, h, hsat => h 0 s rfl hsat
  | .node _ _, _, h, hsat =>
    decide_eq_true (Nat.le_trans (of_decide_eq_true hsat) (countFrom_mono h))

theorem countFrom_mono {held held' : Nat → Statement → Bool} : ∀ {cs : List Proposition}
    {i : Nat}, (∀ j s, (leavesAll cs)[j]? = some s → held (i + j) s → held' (i + j) s) →
      countFrom held i cs ≤ countFrom held' i cs
  | [], _, _ => Nat.le_refl 0
  | c :: cs, i, h => by
    have hfirst : c.satisfiedFrom held i → c.satisfiedFrom held' i := by
      refine satisfiedFrom_mono fun j s hj => h j s ?_
      obtain ⟨hlt, -⟩ := List.getElem?_eq_some_iff.1 hj
      rwa [leavesAll, List.getElem?_append_left hlt]
    have hrest : countFrom held (i + c.leaves.length) cs ≤
        countFrom held' (i + c.leaves.length) cs := by
      refine countFrom_mono fun j s hj => ?_
      -- leaves of the siblings come behind those of the first child
      have hplace := h (c.leaves.length + j) s
      rw [leavesAll, List.getElem?_append_right (Nat.le_add_right ..), Nat.add_sub_cancel_left,
        ← Nat.add_assoc] at hplace
      exact hplace hj
    have hone : (c.satisfiedFrom held i).toNat ≤ (c.satisfiedFrom held' i).toNat := by
      cases hheld : c.satisfiedFrom held i with
      | false => exact Nat.zero_le _
      | true => simp [hfirst hheld]
    exact Nat.add_le_add hone hrest

end

/-- Whether the proposition is satisfied by knowing the secrets of some statements. -/
def satisfied (known : Statement → Bool) (p : Proposition) : Bool :=
  p.satisfiedFrom (fun _ => known) 0

end Proposition

/-! ## Marking -/

namespace Plan

variable [Suite]

theorem length_markAll (resolve : Statement → Option Suite.Scalar) (cs : List Proposition) :
    (markAll resolve cs).length = cs.length := by
  induction cs with
  | nil => rfl
  | cons c cs ih => simp [markAll, ih]

mutual

/-- The prover's plan is real at the root exactly when the secrets at hand satisfy the
proposition. -/
theorem isReal_mark (resolve : Statement → Option Suite.Scalar) (i : Nat) : ∀ p : Proposition,
    (mark resolve p).isReal = p.satisfiedFrom (fun _ s => (resolve s).isSome) i
  | .trivial b => rfl
  | .leaf s => rfl
  | .node c cs => by
    simp only [mark, isReal, Proposition.satisfiedFrom, length_markAll,
      countP_markAll resolve i cs]

theorem countP_markAll (resolve : Statement → Option Suite.Scalar) (i : Nat) :
    ∀ cs : List Proposition, (markAll resolve cs).countP isReal =
      Proposition.countFrom (fun _ s => (resolve s).isSome) i cs
  | [] => rfl
  | c :: cs => by
    rw [markAll, List.countP_cons, Proposition.countFrom, isReal_mark resolve i c,
      countP_markAll resolve (i + c.leaves.length) cs, Nat.add_comm]
    cases Proposition.satisfiedFrom (fun _ s => (resolve s).isSome) i c <;> rfl

end

end Plan

end Covenant

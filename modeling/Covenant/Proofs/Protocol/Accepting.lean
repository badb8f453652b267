/-
  ACCEPTING — finished trees that a verifier accepts, described by local rules.

  1. **Sharing** — how a node's challenge and its children's hang together
     (`Connective.SharesTo`): a conjunction passes it on, a disjunction splits it into a sum, a
     threshold node lays it out on a polynomial of bounded degree.
  2. **Accepting trees** — every node shares its challenge by its rule and the run at every leaf is
     accepting (`ProofTree.Accepting`).  Prover, verifier and extractor are all described by this
     one predicate.
  3. **Two challenges** — where one node shares two different challenges, at least as many of its
     children have two different ones as the connective requires (`SharesTo.required_le_differing`).
     For a threshold node this is the uniqueness of the polynomial: fewer differing children would
     leave more common values than its degree allows.
-/
import Covenant.Proof.Verifier
import Covenant.Proofs.Protocol.Leaf
import Covenant.Proofs.Protocol.Shape
import Covenant.Proofs.Sharing

namespace Covenant

open Suite

/-! ## Sharing a challenge -/

section

variable [Suite]

/-- The polynomial of a threshold node, from its value at zero and its further coefficients. -/
def Polynomial.withConstant (e : Scalar) (coefficients : List Scalar) : Polynomial :=
  ⟨e :: coefficients⟩

/-- A node with challenge `e` and coefficients `fs` may give its children the challenges `es`. -/
def Connective.SharesTo (c : Connective) (e : Scalar) (fs es : List Scalar) : Prop :=
  match c with
  | .all => fs = [] ∧ ∀ x ∈ es, x = e
  | .any => fs = [] ∧ Suite.sum es = e
  | .atLeast _ => fs.length = c.shareDegree es.length ∧
      es = (List.range es.length).map fun j =>
        (Polynomial.withConstant e fs).eval (Polynomial.childPoint j)

end

/-! ## Accepting trees -/

namespace ProofTree

variable [Suite]

mutual

/-- A tree of the proposition's shape in which all challenges are shared by the rules and all
leaves have accepting runs. -/
def Accepting : Proposition → ProofTree → Prop
  | .leaf s, .leaf s' e a z => s' = s ∧ s.Accepts a e z
  | .node c cs, .node c' e fs ts =>
    c' = c ∧ c.SharesTo e fs (ts.map challenge) ∧ AcceptingAll cs ts
  | _, _ => False

/-- Trees that are accepting for one proposition each. -/
def AcceptingAll : List Proposition → List ProofTree → Prop
  | [], [] => True
  | c :: cs, t :: ts => Accepting c t ∧ AcceptingAll cs ts
  | _, _ => False

end

theorem AcceptingAll.length_eq : ∀ {cs : List Proposition} {ts : List ProofTree},
    AcceptingAll cs ts → ts.length = cs.length
  | [], [], _ => rfl
  | _ :: _, _ :: _, h => congrArg (· + 1) (length_eq h.2)

/-- An accepting tree for a leaf is an accepting run of its statement. -/
theorem accepting_leaf {s : Statement} {t : ProofTree} :
    Accepting (.leaf s) t ↔ ∃ e a z, t = .leaf s e a z ∧ s.Accepts a e z := by
  cases t with
  | leaf s' e a z =>
    simp only [Accepting, leaf.injEq]
    constructor
    · rintro ⟨rfl, h⟩
      exact ⟨e, a, z, ⟨rfl, rfl, rfl, rfl⟩, h⟩
    · rintro ⟨_, _, _, ⟨rfl, rfl, rfl, rfl⟩, h⟩
      exact ⟨rfl, h⟩
  | node => simp [Accepting]

/-- An accepting tree for a node has accepting subtrees. -/
theorem accepting_node {c : Connective} {cs : List Proposition} {t : ProofTree} :
    Accepting (.node c cs) t ↔ ∃ e fs ts, t = .node c e fs ts ∧
      c.SharesTo e fs (ts.map challenge) ∧ AcceptingAll cs ts := by
  cases t with
  | leaf => simp [Accepting]
  | node c' e fs ts =>
    simp only [Accepting, node.injEq]
    constructor
    · rintro ⟨rfl, h⟩
      exact ⟨e, fs, ts, ⟨rfl, rfl, rfl, rfl⟩, h⟩
    · rintro ⟨_, _, _, ⟨rfl, rfl, rfl, rfl⟩, h⟩
      exact ⟨rfl, h⟩

/-! ## The runs at the leaves -/

/-- What happened at one leaf. -/
structure LeafRun where
  statement : Statement
  challenge : Scalar
  commitment : Commitment
  response : Scalar

mutual

/-- The runs from left to right. -/
def runs : ProofTree → List LeafRun
  | .leaf s e a z => [⟨s, e, a, z⟩]
  | .node _ _ _ ts => runsAll ts

/-- The runs of some subtrees from left to right. -/
def runsAll : List ProofTree → List LeafRun
  | [] => []
  | t :: ts => t.runs ++ runsAll ts

end

mutual

theorem map_statement_runs : ∀ {p : Proposition} {t : ProofTree}, Accepting p t →
    t.runs.map LeafRun.statement = p.leaves
  | .leaf s, .leaf s' e a z, h => by simp [runs, Proposition.leaves, h.1]
  | .node c cs, .node c' e fs ts, h => map_statement_runsAll h.2.2

theorem map_statement_runsAll : ∀ {cs : List Proposition} {ts : List ProofTree},
    AcceptingAll cs ts → (runsAll ts).map LeafRun.statement = Proposition.leavesAll cs
  | [], [], _ => rfl
  | c :: cs, t :: ts, h => by
    rw [runsAll, List.map_append, map_statement_runs h.1, map_statement_runsAll h.2,
      Proposition.leavesAll]

end

theorem length_runs {p : Proposition} {t : ProofTree} (h : Accepting p t) :
    t.runs.length = p.leaves.length := by
  rw [← map_statement_runs h, List.length_map]

mutual

theorem map_commitment_runs : ∀ t : ProofTree, t.runs.map LeafRun.commitment = t.commitments
  | .leaf _ _ _ _ => rfl
  | .node _ _ _ ts => map_commitment_runsAll ts

theorem map_commitment_runsAll : ∀ ts : List ProofTree,
    (runsAll ts).map LeafRun.commitment = commitmentsAll ts
  | [] => rfl
  | t :: ts => by
    rw [runsAll, List.map_append, map_commitment_runs t, map_commitment_runsAll ts, commitmentsAll]

end

mutual

/-- Every run of an accepting tree is accepting. -/
theorem accepts_of_mem_runs : ∀ {p : Proposition} {t : ProofTree}, Accepting p t →
    ∀ r ∈ t.runs, r.statement.Accepts r.commitment r.challenge r.response
  | .leaf s, .leaf s' e a z, h => by
    rintro r (_ | ⟨_, ⟨⟩⟩)
    exact h.1 ▸ h.2
  | .node c cs, .node c' e fs ts, h => accepts_of_mem_runsAll h.2.2

theorem accepts_of_mem_runsAll : ∀ {cs : List Proposition} {ts : List ProofTree},
    AcceptingAll cs ts →
      ∀ r ∈ runsAll ts, r.statement.Accepts r.commitment r.challenge r.response
  | [], [], _ => by simp [runsAll]
  | c :: cs, t :: ts, h => fun r hr =>
    (List.mem_append.1 hr).elim (accepts_of_mem_runs h.1 r) (accepts_of_mem_runsAll h.2 r)

end

/-! ## The verifier's equations -/

/-- All commitments are of the right kind and all equations hold. -/
def EquationsHold (t : ProofTree) : Prop := ∃ qs, t.equations? = some qs ∧ ∀ q ∈ qs, q.holds

theorem equationsHold_leaf {s : Statement} {e z : Scalar} {a : Commitment} :
    (leaf s e a z).EquationsHold ↔ s.Accepts a e z :=
  Iff.rfl

theorem equationsAll?_hold {ts : List ProofTree} :
    (∃ qs, equationsAll? ts = some qs ∧ ∀ q ∈ qs, q.holds) ↔ ∀ t ∈ ts, t.EquationsHold := by
  induction ts with
  | nil => simp [equationsAll?]
  | cons t ts ih =>
    rw [List.forall_mem_cons, ← ih]
    cases ht : t.equations? <;> cases hts : equationsAll? ts <;>
      simp [equationsAll?, EquationsHold, ht, hts, or_imp, forall_and]

theorem equationsHold_node {c : Connective} {e : Scalar} {fs : List Scalar}
    {ts : List ProofTree} : (node c e fs ts).EquationsHold ↔ ∀ t ∈ ts, t.EquationsHold := by
  rw [← equationsAll?_hold]
  rfl

mutual

/-- The verifier's equations hold of an accepting tree. -/
theorem Accepting.equationsHold : ∀ {p : Proposition} {t : ProofTree}, Accepting p t →
    t.EquationsHold
  | .leaf _, .leaf _ _ _ _, h => equationsHold_leaf.2 (h.1 ▸ h.2)
  | .node _ _, .node _ _ _ _, h => equationsHold_node.2 (AcceptingAll.equationsHold h.2.2)

theorem AcceptingAll.equationsHold : ∀ {cs : List Proposition} {ts : List ProofTree},
    AcceptingAll cs ts → ∀ t ∈ ts, t.EquationsHold
  | [], [], _ => by simp
  | c :: cs, t :: ts, h =>
    List.forall_mem_cons.2 ⟨Accepting.equationsHold h.1, AcceptingAll.equationsHold h.2⟩

end

end ProofTree

/-! ## One node under two challenges -/

section

variable [Suite] [Lawful]

theorem sum_eq (xs : List Scalar) : Suite.sum xs = xs.sum := by
  rw [Suite.sum, List.sum_eq_foldl]

theorem childPoint_injective {i j : Nat} (hi : i < maxChildren) (hj : j < maxChildren)
    (h : (Polynomial.childPoint i : Scalar) = Polynomial.childPoint j) : i = j :=
  Nat.succ.inj (ofNat_injective_of_le hi hj h)

/-- Different children have different abscissae. -/
theorem nodup_childPoints {js : List Nat} (hjs : js.Nodup) (hlt : ∀ j ∈ js, j < maxChildren) :
    (js.map (Polynomial.childPoint : Nat → Scalar)).Nodup :=
  List.Nodup.map_on (fun i hi j hj h => childPoint_injective (hlt i hi) (hlt j hj) h) hjs

/-- Coefficient lists of one length are equal when they differ at too few of the first children. -/
theorem Polynomial.eq_of_few_differing {cs ds : List Scalar} {n : Nat}
    (hlen : cs.length = ds.length) (hn : n ≤ maxChildren)
    (hfew : (List.range n).countP (fun j =>
      horner cs (childPoint j) ≠ horner ds (childPoint j)) < n + 1 - cs.length) : cs = ds := by
  let agrees (j : Nat) : Bool := decide (horner cs (childPoint j) = horner ds (childPoint j))
  have hnodup : (((List.range n).filter agrees).map (childPoint : Nat → Scalar)).Nodup := by
    refine nodup_childPoints (List.nodup_range.filter _) fun j hj => ?_
    exact (List.mem_range.1 (List.mem_filter.1 hj).1).trans_le hn
  -- where few children differ, as many agree as there are coefficients
  have hmany : cs.length ≤ ((List.range n).filter agrees).length := by
    have htotal := List.length_eq_countP_add_countP agrees (l := List.range n)
    rw [List.length_range, List.countP_eq_length_filter] at htotal
    simp only [agrees, decide_not, decide_eq_true_eq] at htotal hfew ⊢
    omega
  refine eq_of_horner_eq hlen hnodup (by rwa [List.length_map]) fun x hx => ?_
  obtain ⟨j, hj, rfl⟩ := List.mem_map.1 hx
  exact of_decide_eq_true (List.mem_filter.1 hj).2

/-- Where a node has two different challenges, as many children have two different ones as its
connective requires. -/
theorem Connective.SharesTo.required_le_differing {c : Connective} {e e' : Scalar}
    {fs fs' es es' : List Scalar} (hallows : c.Allows es.length) (hlen : es'.length = es.length)
    (h : c.SharesTo e fs es) (h' : c.SharesTo e' fs' es') (hne : e ≠ e') :
    c.required es.length ≤ (es.zip es').countP fun x => x.1 ≠ x.2 := by
  cases c with
  | all =>
    have hall : (es.zip es').countP (fun x => x.1 ≠ x.2) = (es.zip es').length := by
      refine List.countP_eq_length.2 fun x hx => ?_
      rw [h.2 x.1 (List.of_mem_zip hx).1, h'.2 x.2 (List.of_mem_zip hx).2]
      exact decide_eq_true hne
    rw [hall, List.length_zip, hlen, Nat.min_self, Connective.required]
  | any =>
    refine Nat.one_le_iff_ne_zero.2 fun hzero => hne ?_
    -- without a differing child the two sums are the same
    have heq : es = es' := by
      refine List.ext_getElem hlen.symm fun j hj hj' => ?_
      have hmem : (es[j], es'[j]) ∈ es.zip es' := by
        rw [← List.getElem_zip (h := by simp [hj, hj'])]
        exact List.getElem_mem _
      simpa using List.countP_eq_zero.1 hzero _ hmem
    rw [← h.2, ← h'.2, heq]
  | atLeast k =>
    have hk : k ≤ es.length := hallows.required_le
    have hmax := hallows.le_maxChildren
    obtain ⟨hfs, hes⟩ := h
    obtain ⟨hfs', hes'⟩ := h'
    rw [hlen] at hfs' hes'
    generalize es.length = n at *
    by_contra hfew
    rw [hes, hes', List.zip_map', List.countP_map] at hfew
    have hdiffer : (List.range n).countP (fun j =>
        (Polynomial.withConstant e fs).eval (Polynomial.childPoint j) ≠
          (Polynomial.withConstant e' fs').eval (Polynomial.childPoint j)) < k := by
      simpa [Function.comp_def, Connective.required] using hfew
    -- more common values than coefficients
    have hsame : e :: fs = e' :: fs' := by
      refine Polynomial.eq_of_few_differing (by simp [hfs, hfs']) hmax (hdiffer.trans_le ?_)
      rw [List.length_cons, hfs, Connective.shareDegree, Connective.required]
      omega
    exact hne (List.cons.inj hsame).1

end

end Covenant

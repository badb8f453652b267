/-
  AGREEMENT — prover and verifier give every node the same challenge.

  They come by it in opposite ways.  The prover picks the challenges of the children it gives up
  first and fits those of the real children to the root's; the verifier starts from the root's and
  the few numbers a proof writes out.  What both end with is one accepting tree, so the argument
  needs no look at which children were real.

  1. **Recombination** — what the challenges of a node's children say about its own
     (`Connective.Recombines`).  For a threshold node this is the sharing polynomial with all points
     on it; `SharesTo.recombines` finds it again from any of its points that are numerous enough.
  2. **Every node** — a property of all nodes of a tree (`ProofTree.EveryNode`), which holds of an
     accepting tree when sharing implies it (`Accepting.everyNode`).
  3. **`challenges_agree`** — the tree the prover ends with has a challenge for every node of the
     proposition, its written form reads back, filling in what was read yields this very tree, and
     every node's challenge is recombined from its children's.
-/
import Covenant.Proofs.Protocol.Completeness

namespace Covenant

open Suite

section

variable [Suite]

/-! ## Recombination -/

/-- How the challenges `es` of a node's children determine its own challenge `e`: children of a
conjunction repeat it, those of a disjunction add up to it, and those of a threshold node lie, child
`j` at `j + 1`, on a polynomial with the value `e` at zero, which is found again from as many of
them as it has coefficients. -/
def Connective.Recombines (c : Connective) (e : Scalar) (es : List Scalar) : Prop :=
  match c with
  | .all => ∀ x ∈ es, x = e
  | .any => Suite.sum es = e
  | .atLeast k => ∃ f : Polynomial, f.degree ≤ es.length - k ∧ f.eval 0 = e ∧
      (∀ (j : Nat) (x : Scalar), es[j]? = some x → x = f.eval (Polynomial.childPoint j)) ∧
      ∀ js : List Nat, js.Nodup → (∀ j ∈ js, j < es.length) → js.length = es.length - k + 1 →
        Polynomial.interpolate (js.map fun j => (Polynomial.childPoint j, es.getD j 0)) = some f

/-- Challenges shared by the rules recombine. -/
theorem Connective.SharesTo.recombines [Lawful] {c : Connective} {e : Scalar}
    {fs es : List Scalar} (hallows : c.Allows es.length) (h : c.SharesTo e fs es) :
    c.Recombines e es := by
  cases c with
  | all => exact h.2
  | any => exact h.2
  | atLeast k =>
    obtain ⟨hfs, hes⟩ := h
    have hk : k ≤ es.length := hallows.required_le
    have hdegree : fs.length = es.length - k := by
      rw [hfs, Connective.shareDegree, Connective.required, Nat.min_eq_left hk]
    -- every child's challenge lies on the node's polynomial
    have hpoint : ∀ (j : Nat) (x : Scalar), es[j]? = some x →
        x = (Polynomial.withConstant e fs).eval (Polynomial.childPoint j) := by
      intro j x hj
      obtain ⟨hlt, -⟩ := List.getElem?_eq_some_iff.1 hj
      rw [hes, List.getElem?_map, List.getElem?_range hlt] at hj
      exact (Option.some.inj hj).symm
    refine ⟨Polynomial.withConstant e fs, hdegree.le, Polynomial.eval_zero _, hpoint, ?_⟩
    intro js hnodup hlt hcount
    have habscissae : (js.map fun j => ((Polynomial.childPoint j : Scalar), es.getD j 0)).map
        Prod.fst = js.map Polynomial.childPoint := List.map_map
    have hdistinct : (js.map (Polynomial.childPoint : Nat → Scalar)).Nodup :=
      nodup_childPoints hnodup fun j hj => (hlt j hj).trans_le hallows.le_maxChildren
    -- so interpolation through any chosen children can only find this polynomial again
    refine (Polynomial.interpolate_eq_some_iff (habscissae.symm ▸ hdistinct)).2 ⟨?_, ?_⟩
    · show fs.length + 1 = _
      rw [List.length_map, hcount, hdegree]
    · intro q hq
      obtain ⟨j, hj, rfl⟩ := List.mem_map.1 hq
      have hget : es[j]? = some (es.getD j 0) := by
        rw [List.getElem?_eq_getElem (hlt j hj), List.getD_eq_getElem _ _ (hlt j hj)]
      exact (hpoint j _ hget).symm

/-! ## Every node -/

namespace ProofTree

mutual

/-- The proposition that a tree is for. -/
def proposition : ProofTree → Proposition
  | .leaf s _ _ _ => .leaf s
  | .node c _ _ ts => .node c (propositionAll ts)

/-- The propositions that some trees are for. -/
def propositionAll : List ProofTree → List Proposition
  | [] => []
  | t :: ts => t.proposition :: propositionAll ts

end

mutual

/-- All inner nodes obey a rule about their connective, their challenge and their children's. -/
def EveryNode (rule : Connective → Scalar → List Scalar → Prop) : ProofTree → Prop
  | .leaf _ _ _ _ => True
  | .node c e _ ts => rule c e (ts.map challenge) ∧ EveryNodeAll rule ts

/-- All inner nodes of some trees obey a rule. -/
def EveryNodeAll (rule : Connective → Scalar → List Scalar → Prop) : List ProofTree → Prop
  | [] => True
  | t :: ts => t.EveryNode rule ∧ EveryNodeAll rule ts

end

mutual

theorem Accepting.proposition_eq : ∀ {p : Proposition} {t : ProofTree}, Accepting p t →
    t.proposition = p
  | .leaf s, .leaf s' e a z, h => congrArg Proposition.leaf h.1
  | .node c cs, .node c' e fs ts, h => by
    rw [proposition, h.1, AcceptingAll.propositionAll_eq h.2.2]

theorem AcceptingAll.propositionAll_eq : ∀ {cs : List Proposition} {ts : List ProofTree},
    AcceptingAll cs ts → propositionAll ts = cs
  | [], [], _ => rfl
  | c :: cs, t :: ts, h => by
    rw [propositionAll, Accepting.proposition_eq h.1, AcceptingAll.propositionAll_eq h.2]

end

mutual

/-- What every way of sharing a challenge obeys, every node of an accepting tree obeys. -/
theorem Accepting.everyNode {rule : Connective → Scalar → List Scalar → Prop}
    (hrule : ∀ {c e fs es}, c.Allows es.length → c.SharesTo e fs es → rule c e es) :
    ∀ {p : Proposition} {t : ProofTree}, p.WellFormed → Accepting p t → t.EveryNode rule
  | .leaf _, .leaf _ _ _ _, _, _ => trivial
  | .node c cs, .node c' e fs ts, hp, h => by
    obtain ⟨rfl, hshares, hall⟩ := h
    have hlen : (ts.map challenge).length = cs.length := by
      rw [List.length_map, hall.length_eq]
    exact ⟨hrule (hlen.symm ▸ hp.1) hshares, AcceptingAll.everyNodeAll hrule hp.2 hall⟩

theorem AcceptingAll.everyNodeAll {rule : Connective → Scalar → List Scalar → Prop}
    (hrule : ∀ {c e fs es}, c.Allows es.length → c.SharesTo e fs es → rule c e es) :
    ∀ {cs : List Proposition} {ts : List ProofTree}, Proposition.WellFormedAll cs →
      AcceptingAll cs ts → EveryNodeAll rule ts
  | [], [], _, _ => trivial
  | _ :: _, _ :: _, hp, h =>
    ⟨Accepting.everyNode hrule hp.1 h.1, AcceptingAll.everyNodeAll hrule hp.2 h.2⟩

end

end ProofTree

/-! ## Agreement -/

/-- **Prover and verifier agree on every challenge.**  When secrets satisfy a valid proposition, the
first moves can be made and answered for any root challenge and any supply of nonces, provided all
points decode.  Whenever they are, the tree has a challenge for every node of the proposition, the
root's being the one asked for; what it writes reads back, and filled in from the root's challenge
it is the same tree with the same challenges; and at every node the challenges recombine. -/
theorem challenges_agree [Lawful] {σ : Type} (next : σ → Scalar × σ)
    {resolve : Statement → Option Scalar} (hsound : Sound resolve) {p : Proposition}
    (hp : p.NonTrivial) (hvalid : p.validate = .ok ()) (hsat : Satisfies resolve p) (s : σ)
    (e : Scalar) :
    ((∀ st ∈ p.leaves, st.Decodes) → ∃ d s' t,
      commit next (Plan.toProve resolve p) s = .ok (d, s') ∧ d.respond e = .ok t) ∧
    ∀ d s' t, commit next (Plan.toProve resolve p) s = .ok (d, s') → d.respond e = .ok t →
      t.proposition = p ∧ t.challenge = e ∧ t.EveryNode Connective.Recombines ∧
      ∃ k, (Sketch.decoder false p).exactly t.toBytes = .ok k ∧ k.propagate e = .ok t := by
  have hwell : p.WellFormed := ((Proposition.validate_eq_ok hp).1 hvalid).1
  constructor
  · intro hdecodes
    obtain ⟨d, s', hd, hresponds⟩ := exists_realRun next hsound hwell hsat hdecodes s
    obtain ⟨t, ht⟩ := hresponds e
    exact ⟨d, s', t, hd, ht⟩
  · intro d s' t hd ht
    obtain ⟨hchallenge, haccepting⟩ := accepting_of_respond hsound hwell hsat hd ht
    -- prover and verifier meet in one accepting tree
    have hpropagate := ProofTree.propagate_sketch false haccepting
    rw [hchallenge] at hpropagate
    exact ⟨haccepting.proposition_eq, hchallenge,
      haccepting.everyNode (fun hallows h => h.recombines hallows) hwell,
      t.sketch false, ProofTree.exactly_toBytes haccepting, hpropagate⟩

end

section

attribute [local instance] Suite.residues Suite.lawful_residues

/-- With two of three secrets at hand, nonces that count from 3 and the root challenge 9, there is a
tree, and filling in what it writes gives it back. -/
theorem challenges_agree_twoOfThree :
    Satisfies knowsTwo twoOfThree ∧ ∃ (d : Draft) (s' : Nonces) (t : ProofTree),
      commit nextNonce (Plan.toProve knowsTwo twoOfThree) (ofNat 3) = .ok (d, s') ∧
      d.respond (ofNat 9) = .ok t ∧ t.challenge = ofNat 9 ∧
      t.EveryNode Connective.Recombines ∧ ∃ k,
        (Sketch.decoder false twoOfThree).exactly t.toBytes = .ok k ∧
        k.propagate (ofNat 9) = .ok t := by
  obtain ⟨hrun, hagree⟩ := challenges_agree nextNonce sound_knowsTwo (p := twoOfThree) rfl rfl
    satisfies_knowsTwo (ofNat 3) (ofNat 9)
  obtain ⟨d, s', t, hd, ht⟩ := hrun decodes_twoOfThree
  obtain ⟨-, hchallenge, hnodes, hread⟩ := hagree d s' t hd ht
  exact ⟨satisfies_knowsTwo, d, s', t, hd, ht, hchallenge, hnodes, hread⟩

end

end Covenant

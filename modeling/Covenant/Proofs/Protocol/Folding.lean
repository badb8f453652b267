/-
  FOLDING — what is left of a connective whose settled children are folded away.

  `allOf`, `anyOf` and `atLeast` differ in what they count, but they leave the same kinds of
  propositions behind (`Folded`): a settled value, one of the children, or a node over the unsettled
  children, of which there are two at least and as many as the node asks for; a threshold asks for
  more than one and for less than all.

  A proposition that passes validation is settled or else a well-formed tree that is not too deep.
  Depth apart, this is what folding keeps (`Folded.orderly`), even though a settled child is no
  part of a well-formed tree.
-/
import Covenant.Proofs.Protocol.Shape

namespace Covenant

namespace Proposition

/-! ## What folding leaves -/

/-- What folding a connective over some children may leave. -/
inductive Folded (ps : List Proposition) : Proposition → Prop
  | settled (b : Bool) : Folded ps (.trivial b)
  | child (p : Proposition) (hp : p ∈ unsettled ps) : Folded ps p
  | node (c : Connective) (several : 2 ≤ (unsettled ps).length)
      (required_le : c.required (unsettled ps).length ≤ (unsettled ps).length)
      (proper : ∀ k, c = .atLeast k → 1 < k ∧ k < (unsettled ps).length) :
      Folded ps (.node c (unsettled ps))

theorem length_unsettled_le (ps : List Proposition) : (unsettled ps).length ≤ ps.length :=
  List.length_filter_le ..

theorem mem_unsettled {ps : List Proposition} {p : Proposition} :
    p ∈ unsettled ps ↔ p ∈ ps ∧ p.NonTrivial := by
  simp [unsettled, NonTrivial, List.mem_filter]

/-- Unsettled children stay when children are folded away once more. -/
theorem unsettled_unsettled (ps : List Proposition) : unsettled (unsettled ps) = unsettled ps := by
  simp [unsettled]

theorem two_le_length {qs : List Proposition} (hnil : qs = [] → False)
    (hone : ∀ q, qs = [q] → False) : 2 ≤ qs.length := by
  rcases qs with - | ⟨q, - | ⟨q', qs⟩⟩
  · exact (hnil rfl).elim
  · exact (hone q rfl).elim
  · exact Nat.le_add_left 2 qs.length

variable (ps : List Proposition)

theorem folded_allOf : Folded ps (allOf ps) := by
  unfold allOf
  split
  · exact .settled _
  · split
    · exact .settled _
    · rename_i p hkept
      exact .child p (by simp [hkept])
    · rename_i hnil hone
      exact .node .all (two_le_length hnil hone) (Nat.le_refl _) nofun

theorem folded_anyOf : Folded ps (anyOf ps) := by
  unfold anyOf
  split
  · exact .settled _
  · split
    · exact .settled _
    · rename_i p hkept
      exact .child p (by simp [hkept])
    · rename_i hnil hone
      have hseveral := two_le_length hnil hone
      exact .node .any hseveral (Nat.le_of_succ_le hseveral) nofun

/-- A threshold that all or one of the unsettled children meet is a conjunction or disjunction of
them; any other is above one and below their number. -/
theorem folded_atLeast (k : Nat) : Folded ps (atLeast k ps) := by
  -- a threshold that becomes a conjunction or disjunction is folded twice
  have hagain {p : Proposition} (h : Folded (unsettled ps) p) : Folded ps p := by
    cases h with
    | settled b => exact .settled b
    | child p hp => exact .child p (unsettled_unsettled ps ▸ hp)
    | node c several required_le proper =>
      rw [unsettled_unsettled] at several required_le proper ⊢
      exact .node c several required_le proper
  simp only [atLeast]
  -- none are missing, too many are, all are needed, one is, or some
  split
  · exact .settled _
  · split
    · exact .settled _
    · split
      · exact hagain (folded_allOf _)
      · split
        · exact hagain (folded_anyOf _)
        · refine .node _ (by omega) (Nat.not_lt.1 ‹_›) ?_
          rintro j ⟨⟩
          omega

/-! ## Orderly propositions -/

/-- The proposition is settled, or no node of it is. -/
def Orderly (p : Proposition) : Prop := p.NonTrivial → p.WellFormed

/-- **What validation accepts**: orderly propositions of bounded depth. -/
theorem validate_eq_ok_iff {p : Proposition} :
    p.validate = .ok () ↔ p.Orderly ∧ p.depth ≤ maxDepth := by
  cases p with
  | trivial b => exact ⟨fun _ => ⟨nofun, Nat.zero_le _⟩, fun _ => rfl⟩
  | leaf s => simpa [Orderly, NonTrivial, settled?] using validate_eq_ok (p := .leaf s) rfl
  | node c cs => simpa [Orderly, NonTrivial, settled?] using validate_eq_ok (p := .node c cs) rfl

theorem wellFormedAll_iff {ps : List Proposition} :
    WellFormedAll ps ↔ ∀ p ∈ ps, p.WellFormed := by
  induction ps with
  | nil => simp [WellFormedAll]
  | cons p ps ih => rw [WellFormedAll, ih, List.forall_mem_cons]

variable {ps} {p : Proposition}

/-- Folding orderly children leaves an orderly proposition. -/
theorem Folded.orderly (h : Folded ps p) (hlen : ps.length ≤ maxChildren)
    (hps : ∀ p ∈ ps, p.Orderly) : p.Orderly := by
  have hkept (p : Proposition) (hp : p ∈ unsettled ps) : p.WellFormed :=
    hps p (mem_unsettled.1 hp).1 (mem_unsettled.1 hp).2
  intro hp
  cases h with
  | settled b => cases hp
  | child _ hmem => exact hkept p hmem
  | node c several required_le _ =>
    refine ⟨⟨Nat.lt_of_succ_le (Nat.le_of_succ_le several), ?_, required_le⟩,
      wellFormedAll_iff.2 hkept⟩
    exact Nat.le_trans (length_unsettled_le ps) hlen

end Proposition

end Covenant

/-
  MEANING — what a formula says, and that folding settled children away does not change it.

  Give every statement a truth value.  Then a proposition has one: a conjunction holds when all of
  its children do, a disjunction when one does, a threshold when so many do, and a settled
  proposition says its own.  Whoever holds the secrets of the true statements can prove exactly the
  propositions that hold, so a wrong fold would change who may spend.

  1. **`holds`** — the truth value, by recursion on the formula.
  2. **Counting** — the crux: among some children those hold that are settled as true, and those of
     the unsettled ones that hold (`countP_holds`).  A threshold loses as much on both sides when
     the settled ones are folded away.
  3. **Trees** — what folding valid children leaves is valid again, has settled parts only if it is
     settled itself, and no threshold that a conjunction or a disjunction could replace.
  4. **`folding_exact`** — all of it, for the three constructors.
-/
import Covenant.Proofs.Protocol.Folding

namespace Covenant

/-! ## Truth values -/

/-- What a connective makes of the truth values of its children. -/
def Connective.decides (bs : List Bool) : Connective → Bool
  | .all => bs.all id
  | .any => bs.any id
  | .atLeast k => k ≤ bs.count true

namespace Proposition

mutual

/-- The truth value of a proposition, given those of the statements. -/
def holds (σ : Statement → Bool) : Proposition → Bool
  | .trivial b => b
  | .leaf s => σ s
  | .node c cs => c.decides (truths σ cs)

/-- The truth values of some propositions. -/
def truths (σ : Statement → Bool) : List Proposition → List Bool
  | [] => []
  | c :: cs => c.holds σ :: truths σ cs

end

section

variable (σ : Statement → Bool) (k : Nat) (cs : List Proposition)

@[simp] theorem holds_trivial (b : Bool) : (trivial b).holds σ = b := rfl

theorem truths_eq_map : truths σ cs = cs.map (holds σ) := by
  induction cs with
  | nil => rfl
  | cons c cs ih =>
    have hcons : truths σ (c :: cs) = c.holds σ :: truths σ cs := rfl
    rw [hcons, ih, List.map_cons]

theorem holds_node (c : Connective) : (node c cs).holds σ = c.decides (cs.map (holds σ)) := by
  have hnode : (node c cs).holds σ = c.decides (truths σ cs) := rfl
  rw [hnode, truths_eq_map]

theorem holds_all_iff : (node .all cs).holds σ = true ↔ ∀ c ∈ cs, c.holds σ = true := by
  rw [holds_node]
  simp [Connective.decides]

theorem holds_any_iff : (node .any cs).holds σ = true ↔ ∃ c ∈ cs, c.holds σ = true := by
  rw [holds_node]
  simp [Connective.decides]

theorem holds_atLeast_iff :
    (node (.atLeast k) cs).holds σ = true ↔ k ≤ cs.countP (holds σ) := by
  rw [holds_node, Connective.decides, decide_eq_true_iff, List.count, List.countP_map]
  simp [Function.comp_def]

/-! ## Folding keeps the truth value -/

/-- **Those that hold** are settled as true, or unsettled. -/
theorem countP_holds : cs.countP (holds σ) =
    (cs.countP fun c => c.settled? == some true) + (unsettled cs).countP (holds σ) := by
  induction cs with
  | nil => rfl
  | cons c cs ih =>
    rw [unsettled] at ih ⊢
    cases c with
    | trivial b => cases b <;> simp [settled?, List.countP_cons, ih, Nat.add_right_comm]
    | leaf s => simp [settled?, List.countP_cons, ih, Nat.add_assoc]
    | node c ds => simp [settled?, List.countP_cons, ih, Nat.add_assoc]

/-- All hold when none is settled as false and the unsettled ones hold. -/
theorem forall_holds_iff : (∀ c ∈ cs, c.holds σ = true) ↔
    (∀ c ∈ cs, c.settled? ≠ some false) ∧ ∀ c ∈ unsettled cs, c.holds σ = true := by
  constructor
  · intro h
    refine ⟨?_, fun c hc => h c (mem_unsettled.1 hc).1⟩
    -- only constants are settled, and one that holds is not false
    rintro (b | s | ⟨c, ds⟩) hmem hsettled
    · have hb := h _ hmem
      cases b <;> cases hb
      cases hsettled
    · cases hsettled
    · cases hsettled
  · rintro ⟨hnone, hkept⟩ c hc
    cases hsettled : c.settled? with
    | none => exact hkept c (mem_unsettled.2 ⟨hc, hsettled⟩)
    | some b =>
      -- a settled child is true, since none is false
      obtain rfl : b = true := by
        cases b with
        | true => rfl
        | false => exact absurd hsettled (hnone c hc)
      cases c <;> cases hsettled
      rfl

/-- **A conjunction holds** when all its parts do. -/
theorem holds_allOf_iff : (allOf cs).holds σ = true ↔ ∀ c ∈ cs, c.holds σ = true := by
  rw [forall_holds_iff]
  unfold allOf
  split
  · -- some child is settled as false
    rename_i hfalse
    obtain ⟨c, hc, hsettled⟩ := List.any_eq_true.1 hfalse
    refine iff_of_false Bool.false_ne_true ?_
    rintro ⟨hnone, -⟩
    exact hnone c hc (by simpa using hsettled)
  · rename_i hfalse
    have hnone : ∀ c ∈ cs, c.settled? ≠ some false := by
      intro c hc hsettled
      exact hfalse (List.any_eq_true.2 ⟨c, hc, by simp [hsettled]⟩)
    rw [and_iff_right hnone]
    split
    · simp_all
    · simp_all
    · exact holds_all_iff σ _

/-- Some child holds when one is settled as true or an unsettled one holds. -/
theorem exists_holds_iff : (∃ c ∈ cs, c.holds σ = true) ↔
    (∃ c ∈ cs, c.settled? = some true) ∨ ∃ c ∈ unsettled cs, c.holds σ = true := by
  have hcount := countP_holds σ cs
  have hone (p : Proposition → Bool) (qs : List Proposition) :
      (∃ c ∈ qs, p c = true) ↔ 0 < qs.countP p := List.countP_pos_iff.symm
  have hsettled : (∃ c ∈ cs, c.settled? = some true) ↔
      0 < cs.countP fun c => c.settled? == some true := by
    rw [← hone]
    simp
  rw [hone, hsettled, hone]
  omega

/-- **A disjunction holds** when one of its parts does. -/
theorem holds_anyOf_iff : (anyOf cs).holds σ = true ↔ ∃ c ∈ cs, c.holds σ = true := by
  rw [exists_holds_iff]
  unfold anyOf
  split
  · -- some child is settled as true
    rename_i htrue
    obtain ⟨c, hc, hsettled⟩ := List.any_eq_true.1 htrue
    exact iff_of_true rfl (.inl ⟨c, hc, by simpa using hsettled⟩)
  · rename_i htrue
    have hnone : ¬∃ c ∈ cs, c.settled? = some true := by
      rintro ⟨c, hc, hsettled⟩
      exact htrue (List.any_eq_true.2 ⟨c, hc, by simp [hsettled]⟩)
    rw [or_iff_right hnone]
    split
    · simp_all
    · simp_all
    · exact holds_any_iff σ _

/-- **A threshold holds** when so many of its parts do, whatever it is folded into. -/
theorem holds_folded_atLeast_iff :
    (atLeast k cs).holds σ = true ↔ k ≤ cs.countP (holds σ) := by
  have hcount := countP_holds σ cs
  have hmost : (unsettled cs).countP (holds σ) ≤ (unsettled cs).length := List.countP_le_length
  have hall : (∀ c ∈ unsettled cs, c.holds σ = true) ↔
      (unsettled cs).countP (holds σ) = (unsettled cs).length := List.countP_eq_length.symm
  have hany : (∃ c ∈ unsettled cs, c.holds σ = true) ↔
      0 < (unsettled cs).countP (holds σ) := List.countP_pos_iff.symm
  simp only [atLeast]
  by_cases hmet : (k - cs.countP fun c => c.settled? == some true) = 0
  · -- the children settled as true are enough
    rw [if_pos hmet]
    exact iff_of_true rfl (by omega)
  rw [if_neg hmet]
  by_cases hfew : (unsettled cs).length < k - cs.countP fun c => c.settled? == some true
  · -- more are missing than there are
    rw [if_pos hfew]
    exact iff_of_false Bool.false_ne_true (by omega)
  rw [if_neg hfew]
  by_cases hevery : (k - cs.countP fun c => c.settled? == some true) = (unsettled cs).length
  · rw [if_pos hevery, holds_allOf_iff, hall]
    omega
  rw [if_neg hevery]
  by_cases hone : (k - cs.countP fun c => c.settled? == some true) = 1
  · rw [if_pos hone, holds_anyOf_iff, hany]
    omega
  · rw [if_neg hone, holds_atLeast_iff]
    omega

end

/-! ## What is left as a tree -/

mutual

/-- The proposition and everything below it. -/
def subtrees : Proposition → List Proposition
  | .trivial b => [.trivial b]
  | .leaf s => [.leaf s]
  | .node c cs => .node c cs :: subtreesAll cs

/-- Some propositions and everything below them. -/
def subtreesAll : List Proposition → List Proposition
  | [] => []
  | c :: cs => c.subtrees ++ subtreesAll cs

end

theorem mem_subtreesAll {cs : List Proposition} {q : Proposition} :
    q ∈ subtreesAll cs ↔ ∃ c ∈ cs, q ∈ c.subtrees := by
  induction cs with
  | nil => exact ⟨nofun, fun ⟨_, hc, _⟩ => nomatch hc⟩
  | cons c cs ih =>
    have hcons : subtreesAll (c :: cs) = c.subtrees ++ subtreesAll cs := rfl
    rw [hcons, List.mem_append, ih]
    simp

mutual

/-- Nothing in a well-formed tree is settled. -/
theorem WellFormed.unsettled_subtrees : ∀ {p : Proposition}, p.WellFormed →
    ∀ q ∈ p.subtrees, q.NonTrivial
  | .leaf s, _, q, hq => by
    rcases List.mem_singleton.1 hq with rfl
    rfl
  | .node c cs, h, q, hq => by
    rcases List.mem_cons.1 hq with rfl | hq
    · rfl
    · exact WellFormedAll.unsettled_subtrees h.2 q hq

theorem WellFormedAll.unsettled_subtrees : ∀ {cs : List Proposition}, WellFormedAll cs →
    ∀ q ∈ subtreesAll cs, q.NonTrivial
  | c :: cs, h, q, hq => by
    rcases List.mem_append.1 hq with hq | hq
    · exact WellFormed.unsettled_subtrees h.1 q hq
    · exact WellFormedAll.unsettled_subtrees h.2 q hq

end

/-- Every threshold in the tree asks for more than one of its children and for less than all. -/
def ProperThresholds (p : Proposition) : Prop :=
  ∀ k qs, .node (.atLeast k) qs ∈ p.subtrees → 1 < k ∧ k < qs.length

variable {cs : List Proposition} {p : Proposition}

/-- Folding makes no other threshold. -/
theorem Folded.properThresholds (h : Folded cs p) (hcs : ∀ c ∈ cs, c.ProperThresholds) :
    p.ProperThresholds := by
  intro k qs hq
  cases h with
  | settled b => cases List.mem_singleton.1 hq
  | child p hp => exact hcs p (mem_unsettled.1 hp).1 k qs hq
  | node c several required_le proper =>
    rcases List.mem_cons.1 hq with heq | hq
    · obtain ⟨rfl, rfl⟩ := node.inj heq
      exact proper k rfl
    · obtain ⟨c', hc', hq'⟩ := mem_subtreesAll.1 hq
      exact hcs c' (mem_unsettled.1 hc').1 k qs hq'

/-- What is left is at most one level deeper than the deepest child. -/
theorem Folded.depth_le (h : Folded cs p) {d : Nat} (hcs : ∀ c ∈ cs, c.depth < d) : p.depth ≤ d := by
  cases h with
  | settled b => exact Nat.zero_le d
  | child p hp => exact Nat.le_of_lt (hcs p (mem_unsettled.1 hp).1)
  | node c _ _ _ =>
    have hbelow : 0 + depthAll (unsettled cs) ≤ d := by
      refine add_depthAll_le.1 ⟨Nat.zero_le d, fun c' hc' => ?_⟩
      have hlt := hcs c' (mem_unsettled.1 hc').1
      omega
    rwa [Nat.zero_add] at hbelow

/-- What is left of valid children, not too many and none of them as deep as possible, is valid. -/
theorem Folded.validate (h : Folded cs p) (hlen : cs.length ≤ maxChildren)
    (hcs : ∀ c ∈ cs, c.validate = .ok () ∧ c.depth < maxDepth) :
    p.validate = .ok () ∧ (p.NonTrivial → ∀ q ∈ p.subtrees, q.NonTrivial) := by
  have horderly : p.Orderly := h.orderly hlen fun c hc => (validate_eq_ok_iff.1 (hcs c hc).1).1
  have hdepth : p.depth ≤ maxDepth := h.depth_le fun c hc => (hcs c hc).2
  exact ⟨validate_eq_ok_iff.2 ⟨horderly, hdepth⟩, fun hp => (horderly hp).unsettled_subtrees⟩

/-! ## The three constructors -/

/-- **Folding keeps meaning and validity.**  Whatever the statements say, `allOf` holds when all of
the children hold, `anyOf` when one does, and `atLeast k` when `k` of them do.  And when the children
are valid, at most `maxChildren` and none of them at the greatest depth, the result is valid: it is
settled, or nothing in it is; and if no threshold among the children asks for one, for none or for
all of its own, no threshold in the result does. -/
theorem folding_exact (k : Nat) (cs : List Proposition) :
    (∀ σ : Statement → Bool,
      ((allOf cs).holds σ = true ↔ ∀ c ∈ cs, c.holds σ = true) ∧
      ((anyOf cs).holds σ = true ↔ ∃ c ∈ cs, c.holds σ = true) ∧
      ((atLeast k cs).holds σ = true ↔ k ≤ cs.countP (holds σ))) ∧
    (cs.length ≤ maxChildren → (∀ c ∈ cs, c.validate = .ok () ∧ c.depth < maxDepth) →
      ∀ p ∈ [allOf cs, anyOf cs, atLeast k cs],
        p.validate = .ok () ∧
        ((∃ b, p = .trivial b) ∨ ∀ q ∈ p.subtrees, ∀ b, q ≠ .trivial b) ∧
        ((∀ c ∈ cs, c.ProperThresholds) → p.ProperThresholds)) := by
  refine ⟨fun σ => ⟨holds_allOf_iff σ cs, holds_anyOf_iff σ cs, holds_folded_atLeast_iff σ k cs⟩, ?_⟩
  intro hlen hcs p hp
  -- the three constructors fold alike, so the rest is said of any fold
  have hfolded : Folded cs p := by
    simp only [List.mem_cons, List.not_mem_nil, or_false] at hp
    rcases hp with rfl | rfl | rfl
    · exact folded_allOf cs
    · exact folded_anyOf cs
    · exact folded_atLeast cs k
  obtain ⟨hvalid, hsubtrees⟩ := hfolded.validate hlen hcs
  refine ⟨hvalid, ?_, hfolded.properThresholds⟩
  cases hsettled : p.settled? with
  | some b =>
    left
    cases p <;> cases hsettled
    exact ⟨b, rfl⟩
  | none =>
    right
    rintro q hq b rfl
    exact absurd (hsubtrees hsettled _ hq) nofun

/-- Knowledge of the discrete logarithm of a point named by a number. -/
def numbered (n : Nat) : Proposition := dlog (Octets.ofNatLE 32 n)

/-- A threshold of two among three. -/
def twoAmongThree : Proposition := .node (.atLeast 2) [numbered 1, numbered 2, numbered 3]

/-- Three unsettled children between two settled ones. -/
def mixedChildren : List Proposition :=
  [.trivial true, twoAmongThree, .node .any [numbered 4, numbered 5], numbered 6, .trivial false]

/-- Of `mixedChildren` three are asked for: two of those that are not settled remain to be shown. -/
theorem folding_exact_mixed :
    let kept := [twoAmongThree, .node .any [numbered 4, numbered 5], numbered 6]
    atLeast 3 mixedChildren = .node (.atLeast 2) kept ∧
    (atLeast 3 mixedChildren).validate = .ok () ∧ (atLeast 3 mixedChildren).ProperThresholds ∧
    (∀ q ∈ (atLeast 3 mixedChildren).subtrees, ∀ b, q ≠ .trivial b) ∧
    ∀ σ, (atLeast 3 mixedChildren).holds σ = true ↔ 3 ≤ mixedChildren.countP (holds σ) := by
  have hfolds : atLeast 3 mixedChildren =
      .node (.atLeast 2) [twoAmongThree, .node .any [numbered 4, numbered 5], numbered 6] := by
    decide +kernel
  have hchildren : ∀ c ∈ mixedChildren, c.validate = .ok () ∧ c.depth < maxDepth := by
    decide +kernel
  have hproper : ∀ c ∈ mixedChildren, c.ProperThresholds := by
    intro c hc k qs hq
    simp only [mixedChildren, List.mem_cons, List.not_mem_nil, or_false] at hc
    rcases hc with rfl | rfl | rfl | rfl | rfl <;>
      simp [twoAmongThree, numbered, dlog, subtrees, subtreesAll] at hq
    obtain ⟨rfl, rfl⟩ := hq
    decide
  obtain ⟨hmeaning, htree⟩ := folding_exact 3 mixedChildren
  obtain ⟨hvalid, hsettled, hkept⟩ :=
    htree (by decide) hchildren (atLeast 3 mixedChildren) (by simp)
  refine ⟨hfolds, hvalid, hkept hproper, ?_, fun σ => (hmeaning σ).2.2⟩
  rcases hsettled with ⟨b, hb⟩ | hnone
  · rw [hfolds] at hb
    cases hb
  · exact hnone

end Proposition

end Covenant

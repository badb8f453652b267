/-
  PROVABLE — a reduction ends in a proposition that can be given to a prover.

  Evaluation checks the rules of provable trees in pieces.  A connective counts its children before
  it folds the settled ones away, and depth is looked at only when everything is over.  In between
  there are propositions of any depth, and thresholds of any size are asked for.  Still, if all
  propositions at hand pass validation to begin with, the one that comes out passes it: what
  evaluation keeps is that a proposition is settled or else well-formed, at whatever depth
  (`Atom.kept_orderly`).
-/
import Covenant.Proofs.Protocol.Unbroken
import Covenant.Proofs.Reduction.Limit

namespace Covenant

/-! ## Valid and orderly atoms -/

namespace Atom

/-- A proposition passes validation; nothing is asked of other atoms. -/
def Valid : Atom → Prop
  | .sigmaProp p => p.validate = .ok ()
  | _ => True

instance : DecidablePred Valid
  | .sigmaProp p => inferInstanceAs (Decidable (p.validate = .ok ()))
  | .bool _ | .byte _ | .short _ | .int _ | .long _ | .bigInt _ | .groupElement _ | .stateTree _
  | .header _ | .preHeader _ => inferInstanceAs (Decidable True)

/-- A proposition is settled or well-formed; nothing is asked of other atoms. -/
def Orderly : Atom → Prop
  | .sigmaProp p => p.Orderly
  | _ => True

theorem Valid.orderly {a : Atom} (h : a.Valid) : a.Orderly := by
  cases a with
  | sigmaProp p => exact (Proposition.validate_eq_ok_iff.1 h).1
  | _ => exact trivial

/-- **Evaluation keeps order**: statements are well-formed, and folding a few orderly children
leaves an orderly proposition. -/
theorem kept_orderly : Atom.Kept Orderly where
  bool _ := trivial
  byte _ := trivial
  short _ := trivial
  int _ := trivial
  long _ := trivial
  bigInt _ := trivial
  stateTree _ _ := trivial
  minerKey _ _ := trivial
  powOnetimeKey _ _ := trivial
  nextMinerKey _ _ := trivial
  settled _ h := by cases h
  dlog _ _ _ := trivial
  dhTuple _ _ _ _ _ _ _ _ _ := trivial
  allOf ps hlen h := (Proposition.folded_allOf ps).orderly hlen h
  anyOf ps hlen h := (Proposition.folded_anyOf ps).orderly hlen h
  atLeast k ps hlen h := (Proposition.folded_atLeast ps k).orderly hlen h

end Atom

/-! ## Reductions -/

section

variable [Suite]

theorem Condition.StartsFrom.imp {P Q : Atom → Prop} {c : Condition} {ctx : Context}
    (h : c.StartsFrom P ctx) (hPQ : ∀ a, P a → Q a) : c.StartsFrom Q ctx where
  condition a ha := hPQ a (h.condition a ha)
  context :=
    { inputs := fun b hb a ha => hPQ a (h.context.inputs b hb a ha)
      dataInputs := fun b hb a ha => hPQ a (h.context.dataInputs b hb a ha)
      outputs := fun b hb a ha => hPQ a (h.context.outputs b hb a ha)
      headers := fun x hx => hPQ _ (h.context.headers x hx)
      preHeader := hPQ _ h.context.preHeader
      extension := fun e he a ha => hPQ a (h.context.extension e he a ha) }
  scripts s hs a ha := hPQ a (h.scripts s hs a ha)

/-- **Reduction makes no malformed proposition.**  When every proposition that it can start from
passes validation, so does the one that comes out: it is settled or well-formed, and no deeper than
`maxDepth`.  Hence no attempt to prove it, whatever secrets are found, reports a broken rule. -/
theorem Condition.validate_reduce {c : Condition} {ctx : Context} (h : c.StartsFrom Atom.Valid ctx)
    {limit : UInt64} {r : Reduction} (hr : c.reduce ctx limit = .ok r) :
    r.proposition.validate = .ok () ∧
      (r.proposition.NonTrivial → r.proposition.WellFormed) ∧ r.proposition.depth ≤ maxDepth ∧
      ∀ resolve message entropy d,
        prove r.proposition resolve message entropy ≠ .error (.malformedTree d) := by
  obtain ⟨horderly, hdepth⟩ :=
    Condition.has_of_reduce Atom.kept_orderly (h.imp fun _ => Atom.Valid.orderly) hr
  have hvalid := Proposition.validate_eq_ok_iff.2 ⟨horderly, hdepth⟩
  exact ⟨hvalid, horderly, hdepth, fun resolve message entropy =>
    (unbroken_prove hvalid resolve message entropy).2⟩

end

/-! ## A threshold over a table, a constant and a script -/

section

attribute [local instance] Suite.residues Suite.lawful_residues

open Suite

/-- Two of three: the first is a disjunction in the table of constants, the second a constant of the
expression, the third what the script in variable 1 gives. -/
def twoOfSeveral : Condition :=
  .withConstants [.sigmaProp (.node .any [.dlog (multiple 3), .dlog (multiple 5)])]
    (.binary .atLeast (.const (.int 2)) (.collOf .sigmaProp
      [.placeholder 0, .const (.sigmaProp (.dlog (multiple 4))), .deserialize 1 .sigmaProp]))

/-- A script that gives the conjunction of a logarithm and what is settled as true. -/
def settledScript : Expr :=
  .variadic .sigmaAnd [.const (.sigmaProp (.dlog (multiple 6))), .const (.bool true)]

/-- A context in which variable 1 holds the script. -/
def revealingContext : Context :=
  { Context.blank with
    extension := ⟨[(1, .bytes settledScript.toBytes)], List.pairwise_singleton ..⟩
    activatedVersion := 2 }

/-- Everything in sight is valid. -/
theorem startsFrom_twoOfSeveral : twoOfSeveral.StartsFrom Atom.Valid revealingContext where
  condition := by decide
  context :=
    { inputs := by simp [revealingContext, Context.blank]
      dataInputs := by simp [revealingContext, Context.blank]
      outputs := by simp [revealingContext, Context.blank]
      headers := by simp [revealingContext, Context.blank]
      preHeader := trivial
      extension := by simp [revealingContext] }
  scripts s hs := by
    obtain ⟨e, he, i, t, hmem, b, hb, hdecoded⟩ := hs
    cases he
    obtain ⟨rfl, rfl⟩ : i = 1 ∧ t = .sigmaProp := by simpa [Expr.nodes, Expr.nodesAll] using hmem
    cases hb
    have hread : decodeScript 1 settledScript.toBytes = .ok settledScript := by
      with_unfolding_all rfl
    -- the only script at hand is the one in the variable
    cases hread.symm.trans hdecoded
    decide

/-- They come down to two of a disjunction and two logarithms, which passes validation. -/
theorem Condition.validate_reduce_twoOfSeveral :
    twoOfSeveral.StartsFrom Atom.Valid revealingContext ∧
    ∃ r, twoOfSeveral.reduce revealingContext 10000 = .ok r ∧
      r.proposition = .node (.atLeast 2)
        [.node .any [.dlog (multiple 3), .dlog (multiple 5)], .dlog (multiple 4),
          .dlog (multiple 6)] ∧ r.proposition.validate = .ok () := by
  have hreduce : twoOfSeveral.reduce revealingContext 10000 = .ok ⟨.node (.atLeast 2)
      [.node .any [.dlog (multiple 3), .dlog (multiple 5)], .dlog (multiple 4),
        .dlog (multiple 6)], 2182⟩ := by decide +kernel
  exact ⟨startsFrom_twoOfSeveral, _, hreduce, rfl,
    (Condition.validate_reduce startsFrom_twoOfSeveral hreduce).1⟩

end

end Covenant

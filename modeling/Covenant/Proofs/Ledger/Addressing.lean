/-
  ADDRESSING — the address of a condition leads back to a condition that is as good.

  An address keeps all octets of a condition but for one kind: a condition whose root is the
  constant of one discrete logarithm has the logarithm's key for its address.  Its header, its
  version and its table of constants are then forgotten, and the condition behind the address has
  the constant in its expression, wherever it stood before.

  1. **`Proposition.settled`** — what a condition that is a constant comes down to, worked out: a
     constant and a placeholder have one price, and version 0 is activated everywhere.
  2. **`Condition.reduce_of_proposition?`** — such conditions do come down to it.
  3. **`Address.condition_ofCondition`** — the main statement, for every condition that was read.
-/
import Covenant.Ledger.Address
import Covenant.Proofs.Reduction.Gating
import Covenant.Proofs.Script.Boxes
import Covenant.Proofs.Suite.Residues

namespace Covenant

/-! ## Conditions that are a constant -/

/-- What a condition that is the constant `p` comes down to: the constant costs one, and what it
takes to verify `p` is charged once its depth has been looked at. -/
def Proposition.settled (p : Proposition) (limit : UInt64) : Except ReductionError Reduction :=
  let cost := addCost 1 p.verificationCost
  if limit.toNat < 1 then .error (.costLimitExceeded 1 limit.toNat)
  else if maxDepth < p.depth then .error (.malformedCondition .propositionTooDeep)
  else if limit.toNat < cost then .error (.costLimitExceeded cost limit.toNat)
  else .ok ⟨p, UInt64.ofNat cost⟩

/-- What the value `p` of a root goes on to, and how it is paid for. -/
theorem run_resultOf_sigmaProp (p : Proposition) (m : Meter) :
    (resultOf (.sigmaProp p)).run m =
      if maxDepth < p.depth then (.error (.malformedCondition .propositionTooDeep), m)
      else if m.limit < addCost m.spent p.verificationCost then
        (.error (.costLimitExceeded (addCost m.spent p.verificationCost) m.limit), m)
      else (.ok p, { m with spent := addCost m.spent p.verificationCost }) := by
  simp only [resultOf, EvalM.run_bind, EvalM.run_pure]
  by_cases hdeep : maxDepth < p.depth
  · rw [if_pos hdeep, if_pos hdeep]
    rfl
  · rw [if_neg hdeep, if_neg hdeep, EvalM.run_charge_bind]
    rfl

/-- A node that has its value at hand pays its price and notes the value. -/
theorem run_enter_pure {sc : Scope} {op : Opcode} {node : Scope → EvalM Value} {v : Value}
    (hdepth : sc.depth ≤ maxExprDepth) (hnode : node sc.deeper = pure v) (m : Meter) :
    (enter sc op node).run m =
      if m.limit < addCost m.spent op.cost then
        (.error (.costLimitExceeded (addCost m.spent op.cost) m.limit), m)
      else (.ok v, ⟨addCost m.spent op.cost, m.limit,
        .value v (addCost m.spent op.cost) :: .node op :: m.journal⟩) := by
  rw [run_enter_eq hdepth, hnode, Meter.add]
  by_cases hlow : m.limit < addCost m.spent op.cost
  · rw [if_pos hlow, if_pos hlow]
  · rw [if_neg hlow, if_neg hlow]
    rfl

namespace Condition

variable {c : Condition} {p : Proposition} {v : Value}

/-- A constant root stands in the expression or in the table. -/
theorem root_of_rootConstant? (h : c.rootConstant? = some v) :
    ∃ header constants e, c = .parsed header constants e ∧
      (e = .const v ∨ ∃ i, e = .placeholder i ∧ constants[i.toNat]? = some v) := by
  unfold rootConstant? at h
  split at h
  · cases h
    exact ⟨_, _, _, rfl, .inl rfl⟩
  · exact ⟨_, _, _, rfl, .inr ⟨_, rfl, h⟩⟩
  · cases h

/-- A condition that stands for a proposition has it for its root. -/
theorem rootConstant?_of_proposition? (h : c.proposition? = some p) :
    c.rootConstant? = some (.sigmaProp p) := by
  unfold proposition? at h
  split at h
  · cases h
    assumption
  · cases h

variable [Suite] {ctx : Context}

/-- A root of price one that has a proposition at hand. -/
theorem reduce_of_node {e : Expr} {op : Opcode} {node : Scope → EvalM Value}
    (he : c.root? = some e) (hactivated : c.version ≤ ctx.activatedVersion)
    (heval : e.eval (c.scope ctx) = enter (c.scope ctx) op node) (hprice : op.cost = 1)
    (hnode : node (c.scope ctx).deeper = pure (.sigmaProp p)) (limit : UInt64) :
    c.reduce ctx limit = p.settled limit := by
  have hone : addCost 0 1 = 1 := by decide
  have hdepth : (c.scope ctx).depth ≤ maxExprDepth := Nat.zero_le _
  rw [reduce, run, he]
  dsimp only
  rw [if_neg (UInt8.not_lt.2 hactivated), heval, EvalM.run_bind, run_enter_pure hdepth hnode,
    hprice, Meter.new, hone, Proposition.settled]
  -- the node is paid for, then the depth is looked at, then the proof is paid for
  by_cases hlow : limit.toNat < 1
  · rw [if_pos hlow, if_pos hlow]
  rw [if_neg hlow, if_neg hlow]
  dsimp only
  rw [run_resultOf_sigmaProp]
  by_cases hdeep : maxDepth < p.depth
  · rw [if_pos hdeep, if_pos hdeep]
  rw [if_neg hdeep, if_neg hdeep]
  by_cases hshort : limit.toNat < addCost 1 p.verificationCost
  · rw [if_pos hshort, if_pos hshort]
  · rw [if_neg hshort, if_neg hshort]

/-- **A condition that stands for a proposition comes down to it** where its version is activated,
whether the root is the constant itself or refers to the table. -/
theorem reduce_of_proposition? (h : c.proposition? = some p)
    (hactivated : c.version ≤ ctx.activatedVersion) (limit : UInt64) :
    c.reduce ctx limit = p.settled limit := by
  obtain ⟨header, constants, e, rfl, rfl | ⟨i, rfl, hi⟩⟩ :=
    root_of_rootConstant? (rootConstant?_of_proposition? h)
  · exact reduce_of_node rfl hactivated (by rw [Expr.eval, Expr.evalWith]) (by decide) rfl limit
  · refine reduce_of_node rfl hactivated (by rw [Expr.eval, Expr.evalWith]) (by decide) ?_ limit
    simp only [Scope.deeper, scope, Condition.constants, hi]

omit [Suite] in
/-- Constants are as old as conditions. -/
theorem version_ofProposition (p : Proposition) : (Condition.ofProposition p).version = 0 := by
  have hrequired : (Expr.const (.sigmaProp p)).requiredVersion = 0 := by
    simp only [Expr.requiredVersion, Expr.opcodes, Expr.opcode]
    decide
  rw [ofProposition, new, version, header, hrequired]
  decide

/-- What reduces is activated. -/
theorem activated_of_reduce {limit : UInt64} {r : Reduction} (h : c.reduce ctx limit = .ok r) :
    c.version ≤ ctx.activatedVersion := by
  by_contra hnot
  obtain ⟨o, ho⟩ := run_of_not_activated (UInt8.not_le.1 hnot)
  rw [reduce, ho] at h
  cases h

end Condition

/-! ## There and back -/

/-- A condition that is one discrete logarithm has its key for an address. -/
theorem Address.ofCondition_eq_publicKey {c : Condition} {y : PointName}
    (h : c.proposition? = some (.dlog y)) : Address.ofCondition c = .publicKey y := by
  unfold Address.ofCondition
  rw [h]
  rfl

/-- Every other condition has its octets for an address. -/
theorem Address.ofCondition_eq_script {c : Condition}
    (h : ∀ y, c.proposition? ≠ some (.dlog y)) :
    Address.ofCondition c = .script c.toBytes := by
  unfold Address.ofCondition
  split
  · rename_i y hy
    exact absurd hy (h y)
  · rfl

/-- **Paying to the address of a condition is as good as paying to the condition.**

The address of every condition that was read leads back to a condition, which reduces wherever the
first one does: to the same proposition, at the same cost, under every limit.  It is the first one
itself, unless the root of that is the constant of a discrete logarithm, in the expression or in the
table. -/
theorem Address.condition_ofCondition [Suite] {b : Bytes} {c : Condition}
    (hc : Condition.ofBytes b = .ok c) :
    ∃ c', (Address.ofCondition c).condition = .ok c' ∧
      (∀ ctx limit r, c.reduce ctx limit = .ok r → c'.reduce ctx limit = .ok r) ∧
      (c' = c ∨ ∃ header constants e y, c = .parsed header constants e ∧
        (e = .const (.sigmaProp (.dlog y)) ∨
          ∃ i, e = .placeholder i ∧ constants[i.toNat]? = some (.sigmaProp (.dlog y)))) := by
  by_cases hkey : ∃ y, c.proposition? = some (.dlog y)
  · obtain ⟨y, hy⟩ := hkey
    refine ⟨.ofProposition (.dlog y), by rw [ofCondition_eq_publicKey hy, condition], ?_, .inr ?_⟩
    · intro ctx limit r hr
      -- where the version of `c` is activated, so is version 0
      have hactivated : (Condition.ofProposition (.dlog y)).version ≤ ctx.activatedVersion :=
        Condition.version_ofProposition (.dlog y) ▸ UInt8.zero_le
      rw [Condition.reduce_of_proposition? rfl hactivated,
        ← Condition.reduce_of_proposition? hy (Condition.activated_of_reduce hr), hr]
    · obtain ⟨header, constants, e, hparsed, hroot⟩ :=
        Condition.root_of_rootConstant? (Condition.rootConstant?_of_proposition? hy)
      exact ⟨header, constants, e, y, hparsed, hroot⟩
  · rw [ofCondition_eq_script (not_exists.1 hkey)]
    exact ⟨c, by rw [condition, Condition.toBytes_of_ofBytes hc, hc], fun _ _ _ hr => hr, .inl rfl⟩

/-! ## A key in a table -/

section

attribute [local instance] Suite.residues

open Suite

/-- A condition of version 2 whose root refers to a key in its table. -/
def keyInTable : Condition :=
  .parsed (Condition.headerFor 2 true) [.sigmaProp (.dlog (multiple 3))] (.placeholder 0)

/-- The condition is read back from its octets.  The one behind its address comes down to the same
key at the same cost, 1 for the node and 500 for the proof. -/
theorem Address.condition_ofCondition_keyInTable :
    Condition.ofBytes keyInTable.toBytes = .ok keyInTable ∧
    ∃ c', (Address.ofCondition keyInTable).condition = .ok c' ∧
      c'.reduce { Context.blank with activatedVersion := 2 } 501 =
        .ok ⟨.dlog (multiple 3), 501⟩ := by
  have hread : Condition.ofBytes keyInTable.toBytes = .ok keyInTable := by
    with_unfolding_all rfl
  have hreduce : keyInTable.reduce { Context.blank with activatedVersion := 2 } 501 =
      .ok ⟨.dlog (multiple 3), 501⟩ := by decide +kernel
  obtain ⟨c', hc', hsame, -⟩ := Address.condition_ofCondition hread
  exact ⟨hread, c', hc', hsame _ _ _ hreduce⟩

end

end Covenant

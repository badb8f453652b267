/-
  GATING — a network runs no operation that it has not activated.

  Two comparisons keep newer operations away: the version of a condition must be activated before it
  is run, and an operation must be provided by the version of the condition before it can be part of
  it.  Nothing is compared while nodes are evaluated.  So it matters that the second comparison was
  made for every node that an evaluation can enter: those of the condition, however it was come by
  (`Condition.Built.provided`), and those of scripts that variables hold, which are read at the
  version of the condition that asks for them.
-/
import Covenant.Proofs.Reduction.Limit
import Covenant.Proofs.Script.Versions

namespace Covenant

section

variable [Suite]

/-- A script that was read at a version uses only operations of this version. -/
theorem provided_of_decodeScript {version : UInt8} {b : Bytes} {s : Expr}
    (h : decodeScript version b = .ok s) : s.Provided version :=
  Expr.provided_of_decoder (decodeScript_eq_ok.1 h)

namespace Condition

variable {c : Condition} {ctx : Context}

/-- Before its version is activated, a condition is not run at all. -/
theorem run_of_not_activated (h : ctx.activatedVersion < c.version) :
    ∃ o, c.run ctx = throw (.unsupportedOperation o) := by
  unfold Condition.run
  split
  · exact ⟨_, rfl⟩
  · exact ⟨.notActivated, by rw [if_pos h]; rfl⟩

/-- **Operations that were entered** are provided by the version of the condition, whose scripts
are read at the same version. -/
theorem since_le_of_mem_journal (hc : c.Built) {m : Meter} {op : Opcode}
    (h : .node op ∈ ((c.run ctx).run m).2.journal) : .node op ∈ m.journal ∨ op.since ≤ c.version :=
  (metered_run hc.provided fun _ _ => provided_of_decodeScript).mem_journal h

/-- **Version gating.**  In a reduction of any condition that was built or read, every node entered
has an operation of the condition's version or an older one, in scripts as well, and this version is
activated.  As long as it is not, nothing is entered, nothing is spent, and the operation counts as
unsupported. -/
theorem reduce_gated (hc : c.Built) (ctx : Context) (limit : UInt64) :
    (∀ op, .node op ∈ ((c.run ctx).run (Meter.new limit)).2.journal →
      op.since ≤ c.version ∧ c.version ≤ ctx.activatedVersion) ∧
    (ctx.activatedVersion < c.version → ((c.run ctx).run (Meter.new limit)).2 = Meter.new limit ∧
      ∃ o, c.reduce ctx limit = .error (.unsupportedOperation o)) := by
  have hidle (h : ctx.activatedVersion < c.version) :
      ∃ o, (c.run ctx).run (Meter.new limit) =
        (.error (.unsupportedOperation o), Meter.new limit) := by
    obtain ⟨o, ho⟩ := run_of_not_activated h
    exact ⟨o, by rw [ho]; rfl⟩
  constructor
  · intro op hop
    refine ⟨(since_le_of_mem_journal hc hop).resolve_left (by simp [Meter.new]), ?_⟩
    -- an entry in the journal shows that something ran
    refine UInt8.not_lt.1 fun h => ?_
    obtain ⟨o, ho⟩ := hidle h
    rw [ho] at hop
    cases hop
  · intro h
    obtain ⟨o, ho⟩ := hidle h
    exact ⟨by rw [ho], o, by rw [reduce, ho]⟩

end Condition

end

/-! ## A script that filters -/

/-- A script that counts the items above one; filtering came with version 1. -/
def countAboveOne : Expr :=
  .binary (.compare .eq) (.const (.int 1)) (.unary .sizeOf
    (.loop .filter (.collOf .int [.const (.int 1), .const (.int 2)]) ⟨[(1, .int)], .bool⟩
      (.binary (.compare .gt) (.use 1) (.const (.int 1)))))

/-- A condition that runs the script in variable 1. -/
def runsVariable : Condition := .new (.deserialize 1 .bool)

/-- A context with this script, on a network that activated version 1. -/
def countingContext : Context :=
  { Context.blank with
    extension := ⟨[(1, .bytes countAboveOne.toBytes)], List.pairwise_singleton ..⟩
    activatedVersion := 1 }

/-- The operation of a node that was entered. -/
def Step.opcode? : Step → Option Opcode
  | node op => some op
  | _ => none

theorem Step.mem_filterMap_opcode? {steps : List Step} {op : Opcode} :
    op ∈ steps.filterMap Step.opcode? ↔ .node op ∈ steps := by
  rw [List.mem_filterMap]
  constructor
  · rintro ⟨step, hstep, hop⟩
    cases step <;> cases hop
    exact hstep
  · exact fun h => ⟨_, h, rfl⟩

/-- Once version 1 is activated, the script runs and enters operations of this version at most, its
loop and the comparison in the function that the loop applies among them; in a context without
activated versions it is not looked at. -/
theorem Condition.reduce_gated_runsVariable :
    runsVariable.Built ∧ runsVariable.reduce countingContext 1000 = .ok ⟨.trivial true, 196⟩ ∧
    .node (.loop .filter) ∈ ((runsVariable.run countingContext).run (Meter.new 1000)).2.journal ∧
    .node (.binary (.compare .gt)) ∈
      ((runsVariable.run countingContext).run (Meter.new 1000)).2.journal ∧
    (∀ op, .node op ∈ ((runsVariable.run countingContext).run (Meter.new 1000)).2.journal →
      op.since ≤ 1) ∧
    ∃ o, runsVariable.reduce .blank 1000 = .error (.unsupportedOperation o) := by
  have hbuilt : runsVariable.Built := .new _
  have hversion : runsVariable.version = 1 := by decide
  -- what the script in the variable does, which the condition's own nodes do not show
  have hentered : [.loop .filter, .binary (.compare .gt)] ⊆
      ((runsVariable.run countingContext).run (Meter.new 1000)).2.journal.filterMap
        Step.opcode? := by decide +kernel
  obtain ⟨hloop, hcompare⟩ := List.cons_subset.1 hentered
  refine ⟨hbuilt, by decide +kernel, Step.mem_filterMap_opcode?.1 hloop,
    Step.mem_filterMap_opcode?.1 (hcompare List.mem_cons_self), fun op hop => ?_, ?_⟩
  · exact hversion ▸ ((reduce_gated hbuilt countingContext 1000).1 op hop).1
  · exact ((reduce_gated hbuilt .blank 1000).2 (by decide)).2

end Covenant

/-
  REDUCE — from a condition in a context to the proposition that must be proved.

  A condition whose version the network has not activated is not run at all.  The value of its
  expression, a boolean or a proposition, is the result; what proving it will cost to verify is
  charged last, against the same limit.
-/
import Covenant.Reduction.Evaluation
import Covenant.Script.Condition

namespace Covenant

/-- What a condition comes down to, and what finding and checking it costs. -/
structure Reduction where
  proposition : Proposition
  cost : UInt64
deriving DecidableEq

/-- The proposition that a condition's value stands for. -/
def resultOf (v : Value) : EvalM Proposition := do
  let p ← match v with
    | .bool b => pure (.trivial b)
    | .sigmaProp p => pure p
    | _ => EvalM.malformed .notAProposition
  if maxDepth < p.depth then EvalM.malformed .propositionTooDeep
  -- the verifier's work counts against the limit that the evaluation had
  EvalM.charge p.verificationCost
  return p

namespace Condition

/-- The scope in which a condition's expression is evaluated. -/
def scope (c : Condition) (ctx : Context) : Scope := ⟨ctx, c.constants, [], c.version, 0⟩

variable [Suite]

/-- Evaluates a condition and accounts for its proposition. -/
def run (c : Condition) (ctx : Context) : EvalM Proposition := do
  match c.root? with
  | none => throw (.unsupportedOperation .unknown)
  | some e =>
    -- before anything is paid for
    if ctx.activatedVersion < c.version then throw (.unsupportedOperation .notActivated)
    resultOf (← e.eval (c.scope ctx))

/-- Reduces a condition, failing once its cost would exceed the limit. -/
def reduce (c : Condition) (ctx : Context) (limit : UInt64) : Except ReductionError Reduction :=
  match (c.run ctx).run (Meter.new limit) with
  | (.ok p, m) => .ok ⟨p, UInt64.ofNat m.spent⟩
  | (.error e, _) => .error e

end Condition

end Covenant

/-
  NESTING — what stands directly below a node of an expression, and how deep it goes.

  A node has operands, and a loop or a fold has the body of its function as well.  Both hang one
  level below the node, but the decoder counts a body as two.  So `Expr.depth k` is the depth of
  an expression when bodies count `k` levels.

  What an expression needs of a decoder, levels and a script version, it needs for each part: one
  equivalence for each (`Expr.depth_le_iff`, `Expr.provided_iff`).
-/
import Covenant.Proofs.Script.Versions

namespace Covenant.Expr

/-! ## Parts -/

/-- The values in the node itself. -/
def values : Expr → List Value
  | .const v => [v]
  | _ => []

/-- The expressions directly below the node, bodies of functions apart. -/
def operands : Expr → List Expr
  | .const _ | .placeholder _ | .use _ | .context _ | .getVar _ _ | .deserialize _ _ => []
  | .block ds e => ds.map Prod.snd ++ [e]
  | .variadic _ es => es
  | .collOf _ es => es
  | .unary _ e => [e]
  | .register e _ _ => [e]
  | .record _ e => [e]
  | .binary _ a b => [a, b]
  | .ternary _ a b c => [a, b, c]
  | .byIndex c i d => c :: i :: d.toList
  | .loop _ c _ _ => [c]
  | .fold c z _ _ => [c, z]
  | .selectField e _ => [e]
  | .dhTuple g h u v => [g, h, u, v]

/-- The bodies of functions directly below the node. -/
def bodies : Expr → List Expr
  | .loop _ _ _ b => [b]
  | .fold _ _ _ b => [b]
  | _ => []

/-! ## Depth -/

mutual

/-- Depth of nesting when the body of a function counts `k` levels; the root is at depth zero. -/
def depth (k : Nat) : Expr → Nat
  | .const _ | .placeholder _ | .use _ | .context _ | .getVar _ _ | .deserialize _ _ => 0
  | .block ds e => max (depthDefs k ds) (e.depth k + 1)
  | .variadic _ es => depthAll k es
  | .collOf _ es => depthAll k es
  | .unary _ e => e.depth k + 1
  | .register e _ _ => e.depth k + 1
  | .record _ e => e.depth k + 1
  | .binary _ a b => max (a.depth k + 1) (b.depth k + 1)
  | .ternary _ a b c => max (a.depth k + 1) (max (b.depth k + 1) (c.depth k + 1))
  | .byIndex c i none => max (c.depth k + 1) (i.depth k + 1)
  | .byIndex c i (some d) => max (c.depth k + 1) (max (i.depth k + 1) (d.depth k + 1))
  -- only here does it matter how many levels down a body is
  | .loop _ c _ b => max (c.depth k + 1) (b.depth k + k)
  | .fold c z _ b => max (c.depth k + 1) (max (z.depth k + 1) (b.depth k + k))
  | .selectField e _ => e.depth k + 1
  | .dhTuple g h u v =>
    max (max (g.depth k + 1) (h.depth k + 1)) (max (u.depth k + 1) (v.depth k + 1))

/-- One more than the depth of the deepest of some expressions; zero without any. -/
def depthAll (k : Nat) : List Expr → Nat
  | [] => 0
  | e :: es => max (e.depth k + 1) (depthAll k es)

/-- One more than the depth of the deepest right-hand side; zero without definitions. -/
def depthDefs (k : Nat) : List (UInt32 × Expr) → Nat
  | [] => 0
  | (_, e) :: ds => max (e.depth k + 1) (depthDefs k ds)

end

variable {k m : Nat}

theorem depthAll_le_iff {es : List Expr} : depthAll k es ≤ m ↔ ∀ e ∈ es, e.depth k < m := by
  induction es with
  | nil => simp [depthAll]
  | cons e es ih =>
    rw [depthAll, Nat.max_le, ih, List.forall_mem_cons]
    exact Iff.rfl

theorem depthDefs_le_iff {ds : List (UInt32 × Expr)} :
    depthDefs k ds ≤ m ↔ ∀ d ∈ ds, d.2.depth k < m := by
  induction ds with
  | nil => simp [depthDefs]
  | cons d ds ih =>
    rw [depthDefs, Nat.max_le, ih, List.forall_mem_cons]
    exact Iff.rfl

/-- An expression is as deep as its deepest part makes it. -/
theorem depth_le_iff {e : Expr} : e.depth k ≤ m ↔
    (∀ s ∈ e.operands, s.depth k < m) ∧ ∀ s ∈ e.bodies, s.depth k + k ≤ m := by
  cases e with
  | block ds e =>
    -- the definitions of a block are operands like the expression behind them
    rw [depth, Nat.max_le, depthDefs_le_iff, operands, List.forall_mem_append, List.forall_mem_map,
      List.forall_mem_singleton]
    simp only [bodies, Nat.lt_iff_add_one_le, List.not_mem_nil, false_imp_iff, implies_true,
      and_true]
  | variadic op es | collOf t es =>
    rw [depth, depthAll_le_iff]
    simp [operands, bodies]
  | byIndex c i default =>
    cases default <;>
      simp only [depth, operands, bodies, Option.toList, Nat.max_le, Nat.lt_iff_add_one_le,
        List.forall_mem_cons, List.not_mem_nil, false_imp_iff, implies_true, and_true]
  | _ =>
    simp only [depth, operands, bodies, Nat.max_le, Nat.lt_iff_add_one_le, Nat.zero_le,
      List.forall_mem_cons, List.not_mem_nil, false_imp_iff, implies_true, and_true, and_assoc]

/-! ## Versions -/

/-- A version provides an expression when it provides the node and all its parts. -/
theorem provided_iff {version : UInt8} {e : Expr} : e.Provided version ↔
    e.opcode.since ≤ version ∧ (∀ s ∈ e.operands, s.Provided version) ∧
      ∀ s ∈ e.bodies, s.Provided version := by
  cases e with
  | block ds e =>
    rw [Provided, opcodes, List.forall_mem_cons, List.forall_mem_append, forall_opcodesDefs,
      operands, List.forall_mem_append, List.forall_mem_map, List.forall_mem_singleton]
    simp [bodies, opcode, Provided]
  | variadic op es | collOf t es =>
    rw [Provided, opcodes, List.forall_mem_cons, forall_opcodesAll]
    simp [operands, bodies, opcode]
  | byIndex c i default =>
    cases default <;>
      simp [Provided, opcodes, operands, bodies, opcode, or_imp, forall_and]
  | _ => simp [Provided, opcodes, operands, bodies, opcode, or_imp, forall_and, and_assoc]

end Covenant.Expr

/-
  EFFORT — how much an evaluation does, whatever it is charged for it.

  The effort of an evaluation is the number of nodes that it evaluates, the body of a function once
  for each application and the nodes of scripts in variables included, and the number of items that
  its collection operations go through.  It is counted by recursion on the expression, without a
  meter and without a limit.  Where it depends on a value — which branch is taken, over which items a
  loop runs — it asks for the value that the operand has when costs do not matter (`EvalM.after`).

  Nothing is said here about what the nodes and the items cost.  That a meter covers them is the
  next thing to show, and there it matters that both sides were counted independently.

  1. **`Effort`** — two numbers, added side by side.
  2. **`EvalM.after`** — the effort of what follows a computation.
  3. **Loops** — one application for each item, until a search is decided.
  4. **`Expr.effort`**, **`Condition.effort`**.
-/
import Covenant.Proofs.Reduction.Exact

namespace Covenant

/-! ## Nodes and items -/

/-- How many nodes were evaluated, and how many items of collections were gone through. -/
@[ext] structure Effort where
  nodes : Nat
  items : Nat
deriving DecidableEq

namespace Effort

instance : Zero Effort := ⟨⟨0, 0⟩⟩

instance : Add Effort := ⟨fun s t => ⟨s.nodes + t.nodes, s.items + t.items⟩⟩

/-- The effort of a node, without its operands. -/
def node : Effort := ⟨1, 0⟩

/-- The effort of so many items. -/
def ofItems (n : Nat) : Effort := ⟨0, n⟩

/-- The least that an effort costs: one unit for a node, and the price of each item. -/
def cost (s : Effort) : Nat := s.nodes + itemCost * s.items

variable (s t : Effort)

@[simp] theorem nodes_zero : (0 : Effort).nodes = 0 := rfl

@[simp] theorem cost_zero : (0 : Effort).cost = 0 := rfl

@[simp] theorem nodes_add : (s + t).nodes = s.nodes + t.nodes := rfl

@[simp] theorem cost_add : (s + t).cost = s.cost + t.cost := by
  have hitems : (s + t).items = s.items + t.items := rfl
  rw [cost, cost, cost, nodes_add, hitems, Nat.mul_add]
  omega

@[simp] theorem nodes_node : node.nodes = 1 := rfl

@[simp] theorem cost_node : node.cost = 1 := rfl

@[simp] theorem nodes_ofItems (n : Nat) : (ofItems n).nodes = 0 := rfl

@[simp] theorem cost_ofItems (n : Nat) : (ofItems n).cost = itemCost * n := Nat.zero_add _

@[simp] theorem zero_add : 0 + s = s :=
  Effort.ext (Nat.zero_add _) (Nat.zero_add _)

@[simp] theorem add_zero : s + 0 = s := rfl

end Effort

/-! ## Effort after a computation -/

namespace EvalM

variable {α : Type}

/-- What a computation returns when costs do not matter. -/
def result? (x : EvalM α) : Option α := (x.run Meter.unlimited).1.toOption

/-- The effort of going on from what a computation returns; none if it returns nothing. -/
def after (x : EvalM α) (next : α → Effort) : Effort :=
  match x.result? with
  | some a => next a
  | none => 0

/-- What is returned under some limit is what there is to go on from. -/
theorem after_eq {A : Opcode → Prop} {x : EvalM α} (hx : Metered A x) {a : α} (h : Returns x a)
    (next : α → Effort) : x.after next = next a := by
  obtain ⟨m, hrun, -⟩ := hx.run_of_returns h Meter.limit_unlimited
  have hresult : x.result? = some a := by
    rw [result?, hrun]
    rfl
  rw [after, hresult]

end EvalM

/-! ## Functions applied to items -/

/-- The effort of applying a function, given that of its body. -/
def Signature.effort (sig : Signature) (body : Scope → Effort) (sc : Scope) (arg : Value) : Effort :=
  match sig.args with
  | [(id, _)] => body (sc.bind id arg)
  | _ => 0

/-- The effort of looking for an item; those behind the first that decides are not looked at. -/
def findEffort (p : Value → EvalM Bool) (body : Value → Effort) (wanted : Bool) :
    List Value → Effort
  | [] => 0
  | v :: vs => .ofItems 1 + (body v + (p v).after fun b =>
      if b == wanted then 0 else findEffort p body wanted vs)

/-- The effort of a fold, whose accumulator is the result of the item before. -/
def foldEffort (f : Value → EvalM Value) (body : Value → Effort) (acc : Value) :
    List Value → Effort
  | [] => 0
  | v :: vs => body (.pair acc v) + (f (.pair acc v)).after fun acc => foldEffort f body acc vs

/-- The effort of a loop over a collection, given the body of its function and the body's effort. -/
def LoopOp.effort (sig : Signature) (body : Scope → EvalM Value) (bodyEffort : Scope → Effort)
    (sc : Scope) (c : Coll) : LoopOp → Effort
  | .map | .filter =>
    .ofItems c.toList.length + (c.toList.map (sig.effort bodyEffort sc)).sum
  | .exists =>
    findEffort (applyPredicate sig body sc) (sig.effort bodyEffort sc) true c.toList
  | .forAll =>
    findEffort (applyPredicate sig body sc) (sig.effort bodyEffort sc) false c.toList

/-- The effort of an operation on one value: those that look at every item of a collection. -/
def UnaryOp.effort (v : Value) : UnaryOp → Effort
  | .allOf | .anyOf => v.asColl.after fun c => .ofItems c.toList.length
  | _ => 0

/-! ## Expressions -/

section

variable [Suite] (script : Scope → UInt8 → ValueType → EvalM Value)
  (scriptEffort : Scope → UInt8 → ValueType → Effort)

mutual

/-- The effort of an expression; `scriptEffort` is that of scripts that variables hold. -/
def Expr.effort : Expr → Scope → Effort
  | .const _, _ | .placeholder _, _ | .use _, _ | .context _, _ | .getVar _ _, _ => .node
  | .block ds e, sc => .node + (Expr.effortDefs ds sc.deeper +
      (Expr.evalDefs script ds sc.deeper).after fun sc => e.effort sc)
  | .variadic _ es, sc => .node + Expr.effortAll es sc.deeper
  | .collOf _ es, sc => .node + Expr.effortAll es sc.deeper
  | .unary op e, sc =>
    .node + (e.effort sc.deeper + (e.evalWith script sc.deeper).after fun v => op.effort v)
  | .register e _ _, sc => .node + e.effort sc.deeper
  | .record _ e, sc => .node + e.effort sc.deeper
  -- the right side counts only where the left one does not decide
  | .binary .and a b, sc => .node + (a.effort sc.deeper +
      (a.evalWith script sc.deeper).after fun v => v.asBool.after fun x =>
        if x then b.effort sc.deeper else 0)
  | .binary .or a b, sc => .node + (a.effort sc.deeper +
      (a.evalWith script sc.deeper).after fun v => v.asBool.after fun x =>
        if x then 0 else b.effort sc.deeper)
  | .binary .optionGetOrElse a b, sc => .node + (a.effort sc.deeper +
      (a.evalWith script sc.deeper).after fun v => v.asOption.after fun o =>
        if o.isSome then 0 else b.effort sc.deeper)
  | .binary .atLeast a b, sc => .node + (a.effort sc.deeper + (b.effort sc.deeper +
      (b.evalWith script sc.deeper).after fun v => v.asColl.after fun c =>
        .ofItems c.toList.length))
  | .binary (.arith _) a b, sc => .node + (a.effort sc.deeper + b.effort sc.deeper)
  | .binary (.compare _) a b, sc => .node + (a.effort sc.deeper + b.effort sc.deeper)
  | .ternary .ifThenElse a b c, sc => .node + (a.effort sc.deeper +
      (a.evalWith script sc.deeper).after fun v => v.asBool.after fun x =>
        if x then b.effort sc.deeper else c.effort sc.deeper)
  | .ternary .slice a b c, sc => .node + (a.effort sc.deeper +
      (a.evalWith script sc.deeper).after fun v => v.asColl.after fun coll =>
        b.effort sc.deeper + (b.evalWith script sc.deeper).after fun v => v.asInt.after fun lower =>
          c.effort sc.deeper + (c.evalWith script sc.deeper).after fun v => v.asInt.after fun upper =>
            .ofItems (clamp upper coll.toList.length - clamp lower coll.toList.length))
  | .byIndex a b none, sc => .node + (a.effort sc.deeper + b.effort sc.deeper)
  -- the default counts only where there is no item
  | .byIndex a b (some d), sc => .node + (a.effort sc.deeper +
      (a.evalWith script sc.deeper).after fun v => v.asColl.after fun c =>
        b.effort sc.deeper + (b.evalWith script sc.deeper).after fun v => v.asInt.after fun i =>
          if (itemAt? c i).isSome then 0 else d.effort sc.deeper)
  -- bodies count once for each item they are run on
  | .loop op a sig body, sc => .node + (a.effort sc.deeper +
      (a.evalWith script sc.deeper).after fun v => v.asColl.after fun c =>
        op.effort sig (fun sc => body.evalWith script sc) (fun sc => body.effort sc) sc.deeper c)
  | .fold a zero sig body, sc => .node + (a.effort sc.deeper +
      (a.evalWith script sc.deeper).after fun v => v.asColl.after fun c =>
        zero.effort sc.deeper + (zero.evalWith script sc.deeper).after fun acc =>
          .ofItems c.toList.length +
            foldEffort (applyFunction sig (fun sc => body.evalWith script sc) sc.deeper)
              (sig.effort (fun sc => body.effort sc) sc.deeper) acc c.toList)
  | .selectField e _, sc => .node + e.effort sc.deeper
  | .dhTuple g h u v, sc => .node + (g.effort sc.deeper + (h.effort sc.deeper +
      (u.effort sc.deeper + v.effort sc.deeper)))
  | .deserialize i t, sc => .node + scriptEffort sc.deeper i t

/-- The effort of some expressions, all of which are evaluated. -/
def Expr.effortAll : List Expr → Scope → Effort
  | [], _ => 0
  | e :: es, sc => e.effort sc + Expr.effortAll es sc

/-- The effort of some definitions. -/
def Expr.effortDefs : List (UInt32 × Expr) → Scope → Effort
  | [], _ => 0
  | (i, e) :: ds, sc => e.effort sc +
      (e.evalWith script sc).after fun v => Expr.effortDefs ds (sc.bind i v)

end

end

variable [Suite]

/-- The effort of a script, which reads no further scripts. -/
def Expr.nestedEffort (e : Expr) (sc : Scope) : Effort :=
  e.effort (fun _ _ _ => EvalM.malformed .nestedScript) (fun _ _ _ => 0) sc

/-- The effort of the script that a variable holds. -/
def scriptEffort (sc : Scope) (id : UInt8) (_ : ValueType) : Effort :=
  (scriptOctets sc.context.extension id).after fun b =>
    (EvalM.lift (decodeScript sc.version b)).after fun e => e.nestedEffort sc.isolated

/-- The effort of evaluating a condition's expression. -/
def Condition.effort (c : Condition) (ctx : Context) : Effort :=
  match c.root? with
  | none => 0
  | some e => e.effort runScript scriptEffort (c.scope ctx)

end Covenant

/-
  MACHINE — evaluation with one frame that every node shares.

  `Expr.evalWith` hands each node the scope it is evaluated in.  A machine has a single frame
  instead: a stack of bindings, a table of constants, the depth of the node and a flag that is set
  while a script runs.  What a node needs changed it changes in the frame, and it has to change it
  back.

  1. **The frame** — a node counts the depth up and down again.  A block remembers how high the stack
     was, pushes its definitions, and cuts the stack back after its body.  A function pushes its
     argument and pops it.  A script runs with an empty stack and no constants, and both are put back
     after it.  All of this happens after a failure too, except that a definition that fails leaves
     the ones before it on the stack.
  2. **The machine** — `Expr.execWith` has a case for each of those of `Expr.evalWith`.  Scripts are
     run by the same machine (`Expr.exec`), which refuses them while the flag is set.
-/
import Covenant.Reduction.Evaluation

namespace Covenant

/-- What nodes share. -/
structure Frame extends Scope where
  /-- Whether a script from a variable is running. -/
  nested : Bool

/-- The state of an evaluation. -/
structure Machine where
  frame : Frame
  meter : Meter

/-- Computations on a machine that may fail. -/
abbrev MachineM := ExceptT ReductionError (StateM Machine)

/-! ## The frame -/

namespace Frame

/-- The frame one level down. -/
def descend (f : Frame) : Frame := { f with depth := f.depth + 1 }

/-- The frame one level up. -/
def ascend (f : Frame) : Frame := { f with depth := f.depth - 1 }

/-- One more binding on the stack. -/
def push (id : UInt32) (v : Value) (f : Frame) : Frame :=
  { f with bindings := (id, v) :: f.bindings }

/-- The stack without the newest binding. -/
def pop (f : Frame) : Frame := { f with bindings := f.bindings.tail }

/-- The stack cut back to a height. -/
def truncate (height : Nat) (f : Frame) : Frame :=
  -- the newest bindings are in front
  { f with bindings := f.bindings.drop (f.bindings.length - height) }

/-- The frame of a script: it sees neither constants nor bindings. -/
def forScript (f : Frame) : Frame := { f with constants := [], bindings := [], nested := true }

/-- The frame after a script, with what was there before it. -/
def afterScript (before f : Frame) : Frame :=
  { f with constants := before.constants, bindings := before.bindings, nested := false }

end Frame

namespace MachineM

variable {α : Type}

/-- A computation that has to do with the meter only. -/
def metered (x : EvalM α) : MachineM α := ExceptT.mk fun s =>
  let done := x.run s.meter
  (done.1, { s with meter := done.2 })

/-- Fails with a defect of the condition. -/
def malformed (d : ConditionDefect) : MachineM α := metered (EvalM.malformed d)

/-- The frame as it is. -/
def frame : MachineM Frame := return (← get).frame

/-- Changes the frame. -/
def update (g : Frame → Frame) : MachineM Unit := modify fun s => { s with frame := g s.frame }

/-- Changes the frame before a computation and again after it, whether it fails or not. -/
def during (before after : Frame → Frame) (x : MachineM α) : MachineM α := ExceptT.mk do
  modify fun s => { s with frame := before s.frame }
  let r ← x.run
  modify fun s => { s with frame := after s.frame }
  return r

end MachineM

open MachineM

/-- Runs one node: checks its depth, counts it while the node runs, pays its price, and notes its
value. -/
def execNode (op : Opcode) (node : MachineM Value) : MachineM Value := do
  -- a node that is too deep is neither paid for nor noted
  if maxExprDepth < (← frame).depth then malformed .tooDeep
  during Frame.descend Frame.ascend do
    metered (EvalM.charge op.cost)
    metered (EvalM.note (.node op))
    let v ← node
    metered (EvalM.noteValue v)
    return v

/-! ## Functions applied to items -/

/-- Applies a function with a body to an argument. -/
def execFunction (sig : Signature) (body : MachineM Value) (arg : Value) : MachineM Value := do
  match sig.args with
  | [(id, t)] =>
    if arg.type ≠ t then malformed .argumentType
    metered (EvalM.noteValue arg)
    let v ← during (Frame.push id arg) Frame.pop body
    if v.type ≠ sig.result then malformed .resultType
    return v
  | _ => malformed .functionArity

/-- Applies a predicate with a body to an argument. -/
def execPredicate (sig : Signature) (body : MachineM Value) (arg : Value) : MachineM Bool := do
  metered <| match ← execFunction sig body arg with
    | .bool b => pure b
    | _ => EvalM.malformed .predicateResult

/-- Runs a loop over a collection. -/
def LoopOp.exec (sig : Signature) (body : MachineM Value) (c : Coll) : LoopOp → MachineM Value
  | .map => do
    metered (EvalM.chargeItems c.size)
    metered (collectItems sig.result (← c.toList.mapM (execFunction sig body)))
  | .filter => do
    metered (EvalM.chargeItems c.size)
    return (Coll.ofList c.itemType (← c.toList.filterM (execPredicate sig body))).toValue
  | .exists => return .bool (← find true)
  | .forAll => return .bool !(← find false)
where
  /-- Looks for an item on which the predicate gives `wanted`, paying for each item looked at. -/
  find (wanted : Bool) : MachineM Bool := c.toList.anyM fun v => do
    metered (EvalM.chargeItems 1)
    return (← execPredicate sig body v) == wanted

/-! ## The machine -/

section Machine

variable [Suite] (script : UInt8 → ValueType → MachineM Value)

mutual

/-- Runs an expression; `script` runs scripts that variables hold. -/
def Expr.execWith : Expr → MachineM Value
  | .const v => execNode .const (pure v)
  | .placeholder i => execNode .placeholder do
    metered <| match (← frame).constants[i.toNat]? with
      | some v => pure v
      | none => EvalM.malformed .placeholderRange
  | .use i => execNode .use do
    metered <| match (← frame).bindings.lookup i with
      | some v => pure v
      | none => EvalM.malformed .unboundVariable
  | .block ds e => execNode .block do
    let height := (← frame).bindings.length
    -- not inside `during`: a definition that fails leaves the ones before it on the stack
    Expr.execDefs ds
    during id (Frame.truncate height) e.execWith
  | .variadic .tuple es => execNode (.variadic .tuple) do
    if maxTupleArity < es.length then malformed .longTuple
    return .tuple (← Expr.execAll es)
  | .variadic .sigmaAnd es => execNode (.variadic .sigmaAnd) do
    if maxChildren < es.length then malformed .wideConnective
    return .sigmaProp (.allOf (← Expr.execPropositions es))
  | .variadic .sigmaOr es => execNode (.variadic .sigmaOr) do
    if maxChildren < es.length then malformed .wideConnective
    return .sigmaProp (.anyOf (← Expr.execPropositions es))
  | .collOf t es => execNode .collOf do
    metered (EvalM.chargeItems es.length)
    metered (collectItems t (← Expr.execAll es))
  | .context f => execNode (.context f) do metered (f.read (← frame).context)
  | .getVar i t => execNode .getVar do
    metered (EvalM.lift (readTyped .variableType t ((← frame).context.extension.get? i)))
  | .unary op e => execNode (.unary op) do metered (op.apply (← e.execWith))
  | .register e i t => execNode .register do
    let b ← metered (← e.execWith).asBox
    metered (EvalM.lift (readTyped .registerType t (b.register? i)))
  | .record f e => execNode (.record f.kind) do metered (EvalM.lift (f.read (← e.execWith)))
  | .binary (.arith op) a b => execNode (.binary (.arith op)) do
    let x ← a.execWith
    let y ← b.execWith
    metered (EvalM.lift (do op.apply (← Operands.ofValues x y)))
  | .binary (.compare op) a b => execNode (.binary (.compare op)) do
    let x ← a.execWith
    let y ← b.execWith
    metered (EvalM.lift (op.apply x y))
  | .binary .and a b => execNode (.binary .and) do
    if ← metered (← a.execWith).asBool then return .bool (← metered (← b.execWith).asBool)
    else return .bool false
  | .binary .or a b => execNode (.binary .or) do
    if ← metered (← a.execWith).asBool then return .bool true
    else return .bool (← metered (← b.execWith).asBool)
  | .binary .optionGetOrElse a b => execNode (.binary .optionGetOrElse) do
    match ← metered (← a.execWith).asOption with
    | some v => return v
    | none => b.execWith
  | .binary .atLeast a b => execNode (.binary .atLeast) do
    let k ← metered (← a.execWith).asInt
    let c ← metered (← b.execWith).asColl
    metered (atLeastOf k c)
  | .ternary .ifThenElse a b c => execNode (.ternary .ifThenElse) do
    if ← metered (← a.execWith).asBool then b.execWith else c.execWith
  | .ternary .slice a b c => execNode (.ternary .slice) do
    let coll ← metered (← a.execWith).asColl
    let lower ← metered (← b.execWith).asInt
    let upper ← metered (← c.execWith).asInt
    metered (sliceColl coll lower upper)
  | .byIndex a b none => execNode .byIndex do
    let coll ← metered (← a.execWith).asColl
    let i ← metered (← b.execWith).asInt
    metered <| match itemAt? coll i with
      | some v => pure v
      | none => EvalM.failed .indexRange
  | .byIndex a b (some d) => execNode .byIndex do
    let coll ← metered (← a.execWith).asColl
    let i ← metered (← b.execWith).asInt
    match itemAt? coll i with
    | some v => return v
    | none => d.execWith
  | .loop op a sig body => execNode (.loop op) do
    let coll ← metered (← a.execWith).asColl
    op.exec sig body.execWith coll
  | .fold a zero sig body => execNode .fold do
    let coll ← metered (← a.execWith).asColl
    let acc ← zero.execWith
    metered (EvalM.chargeItems coll.size)
    coll.toList.foldlM (fun acc v => execFunction sig body.execWith (.pair acc v)) acc
  | .selectField e i => execNode .selectField do metered (selectItem (← e.execWith) i)
  | .dhTuple g h u v => execNode .dhTuple do
    let g ← metered (← g.execWith).asPoint
    let h ← metered (← h.execWith).asPoint
    let u ← metered (← u.execWith).asPoint
    let v ← metered (← v.execWith).asPoint
    return .sigmaProp (.dhTuple g h u v)
  | .deserialize i t => execNode .deserialize (script i t)

/-- The values of some expressions. -/
def Expr.execAll : List Expr → MachineM (List Value)
  | [] => return []
  | e :: es => do
    let v ← e.execWith
    let vs ← Expr.execAll es
    return v :: vs

/-- The propositions that some expressions give. -/
def Expr.execPropositions : List Expr → MachineM (List Proposition)
  | [] => return []
  | e :: es => do
    let p ← metered (← e.execWith).asProposition
    let ps ← Expr.execPropositions es
    return p :: ps

/-- Pushes some definitions, each with those before it on the stack. -/
def Expr.execDefs : List (UInt32 × Expr) → MachineM Unit
  | [] => return ()
  | (i, e) :: ds => do
    let v ← e.execWith
    update (Frame.push i v)
    Expr.execDefs ds

end

end Machine

variable [Suite]

/-- Runs the script in a variable with a given evaluator, unless a script is running already. -/
def execScript (exec : Expr → MachineM Value) (id : UInt8) (t : ValueType) : MachineM Value := do
  let f ← frame
  if f.nested then malformed .nestedScript
  let b ← metered (scriptOctets f.context.extension id)
  metered (EvalM.chargeUnits b.length scriptByteCost)
  let e ← metered (EvalM.lift (decodeScript f.version b))
  -- the depth is not reset, so a script has the levels that its node has left
  let v ← during Frame.forScript (Frame.afterScript f) (exec e)
  if v.type ≠ t then malformed .scriptType
  return v

/-- Runs a script.  The flag is set, so nothing is ever run for a script in it. -/
def Expr.execNested (e : Expr) : MachineM Value :=
  e.execWith (execScript fun _ => malformed .nestedScript)

/-- Runs the expression of a condition, and the scripts that it reads. -/
def Expr.exec (e : Expr) : MachineM Value := e.execWith (execScript Expr.execNested)

end Covenant

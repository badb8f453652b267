/-
  EVALUATION — running an expression in a context.

  Evaluation is structural: `Expr.evalWith` recurses on the expression, with the bindings, the table
  of constants and the depth in a `Scope` that it passes down.  Nothing it does to a scope reaches
  the outside, so bindings are lexical by construction.  The only state is the meter, which also
  survives a failure.

  Scripts read from a variable are not parts of the expression.  So the evaluator is told what to do
  with them: a script runs with an evaluator that refuses further scripts (`Expr.evalNested`), and a
  condition runs with one that decodes a script and runs it without constants and bindings
  (`Expr.eval`).

  Every node pays its fixed price before anything else; loops pay per item and hashes per chunk.
-/
import Covenant.Hash.Blake3
import Covenant.Hash.Sha256
import Covenant.Reduction.Context
import Covenant.Reduction.Fields
import Covenant.Reduction.Meter

namespace Covenant

/-- Computations that spend and may fail; what was spent is known either way. -/
abbrev EvalM := ExceptT ReductionError (StateM Meter)

namespace EvalM

/-- Fails with a defect of the condition. -/
def malformed {α : Type} (d : ConditionDefect) : EvalM α := throw (.malformedCondition d)

/-- Fails at run time. -/
def failed {α : Type} (f : RuntimeFailure) : EvalM α := throw (.evaluationFailed f)

/-- A computation that spends nothing. -/
def lift {α : Type} (r : Except ReductionError α) : EvalM α :=
  match r with
  | .ok x => pure x
  | .error e => throw e

/-- Spends a cost, or fails at the limit. -/
def charge (cost : Nat) : EvalM Unit := do
  match (← get).add cost with
  | .ok m => set m
  | .error e => throw e

/-- Spends the cost of some units at a price each. -/
def chargeUnits (units price : Nat) : EvalM Unit := charge (unitsCost units price)

/-- Writes a step into the journal. -/
def note (s : Step) : EvalM Unit := modify fun m => m.note s

/-- Spends the price of some items. -/
def chargeItems (n : Nat) : EvalM Unit := do
  chargeUnits n itemCost
  note (.items n)

/-- Notes a value that is now available. -/
def noteValue (v : Value) : EvalM Unit := do note (.value v (← get).spent)

end EvalM

/-- Where an expression is evaluated. -/
structure Scope where
  context : Context
  /-- The table that placeholders refer to. -/
  constants : List Value
  /-- Variables with their values, the innermost first. -/
  bindings : List (UInt32 × Value)
  /-- The script version. -/
  version : UInt8
  /-- Depth of the node, counted into scripts that are read from variables. -/
  depth : Nat

namespace Scope

/-- The scope of a node's operands. -/
def deeper (sc : Scope) : Scope := { sc with depth := sc.depth + 1 }

/-- The scope in which one more variable is bound. -/
def bind (sc : Scope) (id : UInt32) (v : Value) : Scope :=
  { sc with bindings := (id, v) :: sc.bindings }

/-- The scope of a script: neither the table nor the bindings around it are visible. -/
def isolated (sc : Scope) : Scope := { sc with constants := [], bindings := [] }

end Scope

/-! ## Values of the right kind -/

namespace Value

/-- A boolean. -/
def asBool : Value → EvalM Bool
  | .bool b => pure b
  | _ => EvalM.malformed .notABoolean

/-- A number of type `Int`. -/
def asInt : Value → EvalM Int32
  | .int x => pure x
  | _ => EvalM.malformed .notAnInt

/-- A group element. -/
def asPoint : Value → EvalM PointName
  | .groupElement y => pure y
  | _ => EvalM.malformed .notAGroupElement

/-- A box. -/
def asBox : Value → EvalM Box
  | .box b => pure b
  | _ => EvalM.malformed .notABox

/-- A collection. -/
def asColl (v : Value) : EvalM Coll :=
  match Coll.ofValue? v with
  | some c => pure c
  | none => EvalM.malformed .notAColl

/-- A byte string. -/
def asBytes : Value → EvalM Bytes
  | .bytes b => pure b
  | _ => EvalM.malformed .notBytes

/-- The content of an option. -/
def asOption : Value → EvalM (Option Value)
  | .option _ v => pure v
  | _ => EvalM.malformed .notAnOption

/-- The items of a tuple. -/
def asTuple : Value → EvalM (List Value)
  | .tuple vs => pure vs
  | _ => EvalM.malformed .notATuple

/-- A proposition; a boolean counts as settled. -/
def asProposition : Value → EvalM Proposition
  | .sigmaProp p => pure p
  | .bool b => pure (.trivial b)
  | _ => EvalM.malformed .notASigmaProp

/-- A value that is a boolean. -/
def bool? : Value → Option Bool
  | .bool b => some b
  | _ => none

end Value

/-! ## Operations on values -/

/-- Boxes as a collection value. -/
def boxColl (bs : List Box) : EvalM Value := do
  EvalM.chargeItems bs.length
  return .seq .box (bs.map .box)

/-- A field of the context. -/
def ContextField.read (c : Context) : ContextField → EvalM Value
  | .height => EvalM.lift (intOf c.tx.state.preHeader.height.toNat)
  | .selfBox =>
    match c.selfBox? with
    | some b => pure (.box b)
    | none => throw (.inconsistentTransaction .selfIndex)
  | .inputs => boxColl c.tx.inputs
  | .outputs => boxColl c.tx.outputs
  | .dataInputs => boxColl c.tx.dataInputs
  | .headers => do
    EvalM.chargeItems c.tx.state.headers.length
    return .seq .header (c.tx.state.headers.map .header)
  | .preHeader => pure (.preHeader c.tx.state.preHeader)
  | .minerKey => pure (.bytes c.tx.state.preHeader.minerKey.1)
  | .stateDigest => pure (.bytes c.tx.state.digest.1)

/-- A field of a box. -/
def Box.read [Suite] (b : Box) : BoxField → EvalM Value
  | .value => EvalM.lift (longOf b.candidate.value.toNat)
  | .scriptBytes => pure (.bytes b.candidate.condition.toBytes)
  | .id => pure (.bytes b.id.1)
  | .creationHeight => EvalM.lift (intOf b.candidate.creationHeight.toNat)
  | .tokens => do
    EvalM.chargeItems b.candidate.tokens.length
    return .seq Token.valueType (← EvalM.lift (b.candidate.tokens.mapM Token.toValue))

/-- The items of a collection of booleans. -/
def boolItems (v : Value) : EvalM (List Bool) := do
  let c ← v.asColl
  EvalM.chargeItems c.size
  match c with
  | .values .bool vs => return vs.filterMap Value.bool?
  | _ => EvalM.malformed .notABooleanColl

/-- A hash of a byte string. -/
def hashBytes (hash : Bytes → Octets 32) (v : Value) : EvalM Value := do
  let b ← v.asBytes
  EvalM.chargeUnits (hashChunks b.length) chunkCost
  return .bytes (hash b).1

/-- An operation on one value. -/
def UnaryOp.apply [Suite] (v : Value) : UnaryOp → EvalM Value
  | .extract f => do (← v.asBox).read f
  | .negate => EvalM.lift (Covenant.negate v)
  | .toBigInt => EvalM.lift (Covenant.toBigInt v)
  | .not => do return .bool !(← v.asBool)
  | .allOf => do return .bool ((← boolItems v).all id)
  | .anyOf => do return .bool ((← boolItems v).any id)
  | .sizeOf => do EvalM.lift (intOf (← v.asColl).size)
  | .optionGet => do
    match ← v.asOption with
    | some w => return w
    | none => EvalM.failed .emptyOption
  | .optionIsDefined => do return .bool (← v.asOption).isSome
  | .sha256 => hashBytes Sha256.hash v
  | .blake3 => hashBytes Blake3.hash v
  | .proveDlog => do return .sigmaProp (.dlog (← v.asPoint))
  | .boolToSigma => do return .sigmaProp (.trivial (← v.asBool))

/-- The item of a tuple with a number counted from one. -/
def selectItem (v : Value) (number : UInt8) : EvalM Value := do
  let vs ← v.asTuple
  match number.toNat with
  | 0 => EvalM.malformed .fieldRange
  | i + 1 =>
    match vs[i]? with
    | some w => return w
    | none => EvalM.malformed .fieldRange

/-- The range of a collection between two bounds, each brought into it. -/
def sliceColl (c : Coll) (lower upper : Int32) : EvalM Value := do
  let upper := clamp upper c.size
  -- bounds that cross give an empty range
  let lower := min (clamp lower c.size) upper
  EvalM.chargeItems (upper - lower)
  return (c.slice lower upper).toValue

/-- The items of a collection of propositions. -/
def propositionItems : Coll → EvalM (List Proposition)
  | .values .sigmaProp vs => vs.mapM fun v =>
    match v with
    | .sigmaProp p => pure p
    | _ => EvalM.malformed .notASigmaProp
  | _ => EvalM.malformed .notASigmaPropColl

/-- At least `k` of a collection of propositions; a bound of zero or less is always met. -/
def atLeastOf (k : Int32) (c : Coll) : EvalM Value := do
  let ps ← propositionItems c
  if maxChildren < ps.length then EvalM.malformed .wideThreshold
  EvalM.chargeItems ps.length
  return .sigmaProp (.atLeast k.toInt.toNat ps)

/-- The item at an index, if there is one. -/
def itemAt? (c : Coll) (i : Int32) : Option Value :=
  if i.toInt < 0 then none else c.get? i.toInt.toNat

/-- The value of a collection of some items that a loop produced. -/
def collectItems (t : ValueType) (vs : List Value) : EvalM Value :=
  match Value.collOf t vs with
  | .ok v => pure v
  | .error _ => EvalM.malformed .itemType

/-! ## Functions applied to items -/

/-- Applies a function to an argument.  `body` evaluates the function's body in a scope. -/
def applyFunction (sig : Signature) (body : Scope → EvalM Value) (sc : Scope) (arg : Value) :
    EvalM Value := do
  match sig.args with
  | [(id, t)] =>
    if arg.type ≠ t then EvalM.malformed .argumentType
    EvalM.noteValue arg
    let v ← body (sc.bind id arg)
    if v.type ≠ sig.result then EvalM.malformed .resultType
    return v
  | _ => EvalM.malformed .functionArity

/-- Applies a predicate to an argument. -/
def applyPredicate (sig : Signature) (body : Scope → EvalM Value) (sc : Scope) (arg : Value) :
    EvalM Bool := do
  match ← applyFunction sig body sc arg with
  | .bool b => return b
  | _ => EvalM.malformed .predicateResult

/-- The results of a function on some items. -/
def mapItems (f : Value → EvalM Value) : List Value → EvalM (List Value)
  | [] => return []
  | v :: vs => do
    let w ← f v
    let ws ← mapItems f vs
    return w :: ws

/-- The items that a predicate accepts. -/
def filterItems (p : Value → EvalM Bool) : List Value → EvalM (List Value)
  | [] => return []
  | v :: vs => do
    let b ← p v
    let ws ← filterItems p vs
    return if b then v :: ws else ws

/-- Looks for an item on which a predicate gives `wanted`, paying for each item looked at. -/
def findItem (p : Value → EvalM Bool) (wanted : Bool) : List Value → EvalM Bool
  | [] => return false
  | v :: vs => do
    EvalM.chargeItems 1
    if (← p v) == wanted then return true
    findItem p wanted vs

/-- Folds a function on pairs over some items. -/
def foldItems (f : Value → EvalM Value) (acc : Value) : List Value → EvalM Value
  | [] => return acc
  | v :: vs => do
    let acc ← f (.pair acc v)
    foldItems f acc vs

/-- Runs a loop over a collection. -/
def LoopOp.run (sig : Signature) (body : Scope → EvalM Value) (sc : Scope) (c : Coll) :
    LoopOp → EvalM Value
  | .map => do
    EvalM.chargeItems c.size
    collectItems sig.result (← mapItems (applyFunction sig body sc) c.toList)
  | .filter => do
    EvalM.chargeItems c.size
    return (Coll.ofList c.itemType (← filterItems (applyPredicate sig body sc) c.toList)).toValue
  | .exists => do return .bool (← findItem (applyPredicate sig body sc) true c.toList)
  | .forAll => do return .bool !(← findItem (applyPredicate sig body sc) false c.toList)

/-! ## The evaluator -/

/-- Runs one node: checks its depth, pays its price, and notes its value. -/
def enter (sc : Scope) (op : Opcode) (node : Scope → EvalM Value) : EvalM Value := do
  if maxExprDepth < sc.depth then EvalM.malformed .tooDeep
  EvalM.charge op.cost
  EvalM.note (.node op)
  let v ← node sc.deeper
  EvalM.noteValue v
  return v

section Evaluator

variable [Suite] (script : Scope → UInt8 → ValueType → EvalM Value)

mutual

/-- Evaluates an expression; `script` is asked to run scripts that variables hold. -/
def Expr.evalWith : Expr → Scope → EvalM Value
  | .const v, sc => enter sc .const fun _ => pure v
  | .placeholder i, sc => enter sc .placeholder fun sc =>
    match sc.constants[i.toNat]? with
    | some v => pure v
    | none => EvalM.malformed .placeholderRange
  | .use i, sc => enter sc .use fun sc =>
    match sc.bindings.lookup i with
    | some v => pure v
    | none => EvalM.malformed .unboundVariable
  | .block ds e, sc => enter sc .block fun sc => do e.evalWith (← Expr.evalDefs ds sc)
  | .variadic .tuple es, sc => enter sc (.variadic .tuple) fun sc => do
    if maxTupleArity < es.length then EvalM.malformed .longTuple
    return .tuple (← Expr.evalAll es sc)
  | .variadic .sigmaAnd es, sc => enter sc (.variadic .sigmaAnd) fun sc => do
    if maxChildren < es.length then EvalM.malformed .wideConnective
    return .sigmaProp (.allOf (← Expr.evalPropositions es sc))
  | .variadic .sigmaOr es, sc => enter sc (.variadic .sigmaOr) fun sc => do
    if maxChildren < es.length then EvalM.malformed .wideConnective
    return .sigmaProp (.anyOf (← Expr.evalPropositions es sc))
  | .collOf t es, sc => enter sc .collOf fun sc => do
    EvalM.chargeItems es.length
    collectItems t (← Expr.evalAll es sc)
  | .context f, sc => enter sc (.context f) fun sc => f.read sc.context
  | .getVar i t, sc => enter sc .getVar fun sc =>
    EvalM.lift (readTyped .variableType t (sc.context.extension.get? i))
  | .unary op e, sc => enter sc (.unary op) fun sc => do op.apply (← e.evalWith sc)
  | .register e i t, sc => enter sc .register fun sc => do
    let b ← (← e.evalWith sc).asBox
    EvalM.lift (readTyped .registerType t (b.register? i))
  | .record f e, sc => enter sc (.record f.kind) fun sc => do
    EvalM.lift (f.read (← e.evalWith sc))
  | .binary (.arith op) a b, sc => enter sc (.binary (.arith op)) fun sc => do
    let x ← a.evalWith sc
    let y ← b.evalWith sc
    EvalM.lift (do op.apply (← Operands.ofValues x y))
  | .binary (.compare op) a b, sc => enter sc (.binary (.compare op)) fun sc => do
    let x ← a.evalWith sc
    let y ← b.evalWith sc
    EvalM.lift (op.apply x y)
  | .binary .and a b, sc => enter sc (.binary .and) fun sc => do
    -- an operand that does not matter is not run, so it cannot fail and costs nothing
    if ← (← a.evalWith sc).asBool then return .bool (← (← b.evalWith sc).asBool)
    else return .bool false
  | .binary .or a b, sc => enter sc (.binary .or) fun sc => do
    if ← (← a.evalWith sc).asBool then return .bool true
    else return .bool (← (← b.evalWith sc).asBool)
  | .binary .optionGetOrElse a b, sc => enter sc (.binary .optionGetOrElse) fun sc => do
    match ← (← a.evalWith sc).asOption with
    | some v => return v
    | none => b.evalWith sc
  | .binary .atLeast a b, sc => enter sc (.binary .atLeast) fun sc => do
    let k ← (← a.evalWith sc).asInt
    let c ← (← b.evalWith sc).asColl
    atLeastOf k c
  | .ternary .ifThenElse a b c, sc => enter sc (.ternary .ifThenElse) fun sc => do
    if ← (← a.evalWith sc).asBool then b.evalWith sc else c.evalWith sc
  | .ternary .slice a b c, sc => enter sc (.ternary .slice) fun sc => do
    let coll ← (← a.evalWith sc).asColl
    let lower ← (← b.evalWith sc).asInt
    let upper ← (← c.evalWith sc).asInt
    sliceColl coll lower upper
  | .byIndex a b none, sc => enter sc .byIndex fun sc => do
    let coll ← (← a.evalWith sc).asColl
    let i ← (← b.evalWith sc).asInt
    match itemAt? coll i with
    | some v => return v
    | none => EvalM.failed .indexRange
  | .byIndex a b (some d), sc => enter sc .byIndex fun sc => do
    let coll ← (← a.evalWith sc).asColl
    let i ← (← b.evalWith sc).asInt
    match itemAt? coll i with
    | some v => return v
    | none => d.evalWith sc
  | .loop op a sig body, sc => enter sc (.loop op) fun sc => do
    let coll ← (← a.evalWith sc).asColl
    op.run sig (fun sc => body.evalWith sc) sc coll
  | .fold a zero sig body, sc => enter sc .fold fun sc => do
    let coll ← (← a.evalWith sc).asColl
    let acc ← zero.evalWith sc
    EvalM.chargeItems coll.size
    -- all items are paid for by now, unlike in a search, which pays for the items it looks at
    foldItems (applyFunction sig (fun sc => body.evalWith sc) sc) acc coll.toList
  | .selectField e i, sc => enter sc .selectField fun sc => do selectItem (← e.evalWith sc) i
  | .dhTuple g h u v, sc => enter sc .dhTuple fun sc => do
    let g ← (← g.evalWith sc).asPoint
    let h ← (← h.evalWith sc).asPoint
    let u ← (← u.evalWith sc).asPoint
    let v ← (← v.evalWith sc).asPoint
    return .sigmaProp (.dhTuple g h u v)
  | .deserialize i t, sc => enter sc .deserialize fun sc => script sc i t

/-- The values of some expressions. -/
def Expr.evalAll : List Expr → Scope → EvalM (List Value)
  | [], _ => return []
  | e :: es, sc => do
    let v ← e.evalWith sc
    let vs ← Expr.evalAll es sc
    return v :: vs

/-- The propositions that some expressions give. -/
def Expr.evalPropositions : List Expr → Scope → EvalM (List Proposition)
  | [], _ => return []
  | e :: es, sc => do
    let p ← (← e.evalWith sc).asProposition
    let ps ← Expr.evalPropositions es sc
    return p :: ps

/-- The scope after some definitions. -/
def Expr.evalDefs : List (UInt32 × Expr) → Scope → EvalM Scope
  | [], sc => return sc
  | (i, e) :: ds, sc => do
    let v ← e.evalWith sc
    Expr.evalDefs ds (sc.bind i v)

end

end Evaluator

variable [Suite]

/-- Evaluates a script: it may not read further scripts. -/
def Expr.evalNested (e : Expr) (sc : Scope) : EvalM Value :=
  e.evalWith (fun _ _ _ => EvalM.malformed .nestedScript) sc

/-- The octets that a variable holds as a script. -/
def scriptOctets (x : Extension) (id : UInt8) : EvalM Bytes :=
  match x.get? id with
  | some (.bytes b) => pure b
  | some _ => EvalM.malformed .variableNotBytes
  | none => EvalM.failed .missingVariable

/-- The script that some octets spell at a script version. -/
def decodeScript (version : UInt8) (b : Bytes) : Except ReductionError Expr :=
  match (Expr.decoder version).exactly b with
  | .ok e => .ok e
  | .error (.unsupportedOpcode _) => .error (.unsupportedOperation .scriptOpcode)
  | .error _ => .error (.malformedCondition .variableNotScript)

/-- Runs the script in a variable, out of sight of the scope around it. -/
def runScript (sc : Scope) (id : UInt8) (t : ValueType) : EvalM Value := do
  let b ← scriptOctets sc.context.extension id
  -- paid for whether the octets turn out to be a script or not
  EvalM.chargeUnits b.length scriptByteCost
  let e ← EvalM.lift (decodeScript sc.version b)
  let v ← e.evalNested sc.isolated
  if v.type ≠ t then EvalM.malformed .scriptType
  return v

/-- Evaluates the expression of a condition. -/
def Expr.eval (e : Expr) (sc : Scope) : EvalM Value := e.evalWith runScript sc

end Covenant

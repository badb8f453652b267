/-
  DEPTH — no node of an expression is refused for its depth when the expression is not too deep.

  Evaluation counts how deep the node is that it enters, and refuses one below `maxExprDepth`.  An
  operand is one level deeper than its node, and so is the body of a function: to the evaluator an
  expression is as deep as `Expr.depth 1` says.  The decoder counts two levels for a body
  (`Expr.depth 2`), so everything that it reads can be evaluated, but not everything that can be
  evaluated can be read.

  1. **`Unrefused x`** — no run of `x` fails for the depth of a node.
  2. **Steps** — only `enter` makes such a failure; one lemma for each of the other operations.
  3. **`Expr.unrefused_evalWith`** — an expression without scripts that fits below its scope; one
     case for each node.
  4. **`Expr.depth_counts`** — what the two counts mean for reading back and for reducing.
-/
import Covenant.Proofs.Reduction.Gating
import Covenant.Proofs.Script.Equality
import Covenant.Proofs.Script.Shallow

namespace Covenant

/-- No run of the computation fails for the depth of a node. -/
def Unrefused {α : Type} (x : EvalM α) : Prop :=
  ∀ m, (x.run m).1 ≠ .error (.malformedCondition .tooDeep)

namespace Unrefused

variable {α β : Type}

theorem pure (a : α) : Unrefused (Pure.pure a) := nofun

theorem fail {e : ReductionError} (he : e ≠ .malformedCondition .tooDeep) :
    Unrefused (throw e : EvalM α) := by
  intro m hrun
  exact he (Except.error.inj hrun)

theorem malformed {d : ConditionDefect} (hd : d ≠ .tooDeep) :
    Unrefused (EvalM.malformed d : EvalM α) :=
  fail fun h => hd (ReductionError.malformedCondition.inj h)

theorem failed (f : RuntimeFailure) : Unrefused (EvalM.failed f : EvalM α) := fail (by simp)

theorem charge (cost : Nat) : Unrefused (EvalM.charge cost) := by
  intro m
  rw [EvalM.run_charge]
  split <;> simp

theorem note (s : Step) : Unrefused (EvalM.note s) := nofun

theorem noteValue (v : Value) : Unrefused (EvalM.noteValue v) := nofun

/-- A sequence, of which the second step may rely on what the first one yields. -/
theorem bindThen {x : EvalM α} {f : α → EvalM β} {Q : α → Prop} (hx : Unrefused x) (hq : Yields x Q)
    (hf : ∀ a, Q a → Unrefused (f a)) : Unrefused (x >>= f) := by
  intro m
  have hfirst := hx m
  rw [EvalM.run_bind]
  rcases hrun : x.run m with ⟨r, m'⟩
  rw [hrun] at hfirst
  cases r with
  | ok a => exact hf a (hq m a m' hrun) m'
  | error e => exact fun h => hfirst (by simpa using h)

theorem bind {x : EvalM α} {f : α → EvalM β} (hx : Unrefused x) (hf : ∀ a, Unrefused (f a)) :
    Unrefused (x >>= f) :=
  bindThen hx (Yields.any x) fun a _ => hf a

theorem check {c : Prop} [Decidable c] {x : EvalM PUnit} {y : EvalM α} (hx : Unrefused x)
    (hy : Unrefused y) : Unrefused (if c then x >>= fun _ => y else y) := by
  split
  · exact bind hx fun _ => hy
  · exact hy

theorem ite {c : Prop} [Decidable c] {x y : EvalM α} (hx : Unrefused x) (hy : Unrefused y) :
    Unrefused (if c then x else y) := by
  split
  · exact hx
  · exact hy

theorem chargeItems (n : Nat) : Unrefused (EvalM.chargeItems n) :=
  bind (charge _) fun _ => note _

theorem lift {r : Except ReductionError α} (h : r ≠ .error (.malformedCondition .tooDeep)) :
    Unrefused (EvalM.lift r) := by
  cases r with
  | ok a => exact pure a
  | error e => exact fail fun he => h (congrArg _ he)

end Unrefused

/-! ## Outcomes without a meter -/

/-- An outcome that is not a refusal for depth. -/
abbrev Allowed {α : Type} (r : Except ReductionError α) : Prop :=
  r ≠ .error (.malformedCondition .tooDeep)

namespace Allowed

variable {α β : Type}

theorem pure (a : α) : Allowed (Except.ok a) := nofun

theorem bind {r : Except ReductionError α} {f : α → Except ReductionError β} (hr : Allowed r)
    (hf : ∀ a, Allowed (f a)) : Allowed (r >>= f) := by
  cases r with
  | ok a => exact hf a
  | error e => exact fun h => hr (by simpa using h)

theorem mapM {f : α → Except ReductionError β} (hf : ∀ a, Allowed (f a)) (as : List α) :
    Allowed (as.mapM f) := by
  induction as with
  | nil => exact .pure _
  | cons a as ih =>
    rw [List.mapM_cons]
    exact bind (hf a) fun _ => bind ih fun _ => .pure _

end Allowed

theorem allowed_intOf (n : Nat) : Allowed (intOf n) := by
  unfold intOf; split <;> simp

theorem allowed_longOf (n : Nat) : Allowed (longOf n) := by
  unfold longOf; split <;> simp

theorem allowed_narrow (t : ValueType) (n : Int) : Allowed (narrow t n) := by
  unfold narrow; split <;> simp

theorem allowed_checkBits (bits : Nat) (n : Int) : Allowed (checkBits bits n) := by
  unfold checkBits; split <;> simp

theorem Operands.allowed_ofValues (x y : Value) : Allowed (Operands.ofValues x y) := by
  unfold Operands.ofValues
  split
  · simp
  · split
    · exact .pure _
    · split <;> simp

theorem ArithOp.allowed_compute (op : ArithOp) (bits : Nat) (x y : Int) :
    Allowed (op.compute bits x y) := by
  cases op with
  | plus | minus | multiply => exact allowed_checkBits _ _
  | division =>
    simp only [compute]
    split
    · simp
    · exact allowed_checkBits _ _
  | modulo =>
    simp only [compute]
    split
    · simp
    · exact .bind (allowed_checkBits _ _) fun _ => .pure _
  | min | max => exact .pure _

theorem ArithOp.allowed_apply (op : ArithOp) (o : Operands) : Allowed (op.apply o) := by
  cases o with
  | small t x y => exact .bind (op.allowed_compute 64 x y) fun n => allowed_narrow t n
  | big x y => exact .bind (op.allowed_compute 256 x y) fun _ => .pure _

theorem CompareOp.allowed_apply (op : CompareOp) (x y : Value) : Allowed (op.apply x y) := by
  have hsame : Allowed (sameValues x y) := by
    unfold sameValues; split <;> simp
  cases op with
  | eq | neq => exact .bind hsame fun _ => .pure _
  | lt | le | gt | ge => exact .bind (Operands.allowed_ofValues x y) fun _ => .pure _

theorem allowed_negate (v : Value) : Allowed (negate v) := by
  unfold negate
  split
  · exact .bind (allowed_checkBits _ _) fun _ => .pure _
  · split
    · simp
    · exact .bind (allowed_checkBits _ _) fun _ => allowed_narrow _ _

theorem allowed_toBigInt (v : Value) : Allowed (toBigInt v) := by
  unfold toBigInt
  split
  · exact .pure _
  · split <;> simp

theorem Header.allowed_read (h : Header) (f : HeaderField) : Allowed (h.read f) := by
  cases f with
  | timestamp | nBits => exact allowed_longOf _
  | height => exact allowed_intOf _
  | _ => exact .pure _

theorem PreHeader.allowed_read (h : PreHeader) (f : PreHeaderField) : Allowed (h.read f) := by
  cases f with
  | timestamp | nBits => exact allowed_longOf _
  | height => exact allowed_intOf _
  | _ => exact .pure _

theorem StateTree.allowed_read (t : StateTree) (f : StateTreeField) : Allowed (t.read f) := by
  cases f with
  | digest | enabledOperations => exact .pure _
  | keyLength => exact allowed_intOf _
  | valueLength =>
    simp only [read]
    split
    · exact .pure _
    · exact .bind (allowed_intOf _) fun _ => .pure _

theorem RecordField.allowed_read (f : RecordField) (v : Value) : Allowed (f.read v) := by
  unfold read
  split
  · exact Header.allowed_read _ _
  · simp
  · exact PreHeader.allowed_read _ _
  · simp
  · exact StateTree.allowed_read _ _
  · simp

theorem Token.allowed_toValue (t : Token) : Allowed t.toValue :=
  .bind (allowed_longOf _) fun _ => .pure _

theorem allowed_readTyped {d : ConditionDefect} (hd : d ≠ .tooDeep) (t : ValueType)
    (o : Option Value) : Allowed (readTyped d t o) := by
  unfold readTyped
  split
  · exact .pure _
  · split
    · exact .pure _
    · exact fun h => hd (by simpa using h)

/-! ## Operations on values -/

theorem EvalM.Finds.unrefused {α : Type} {Q : α → Prop} {x : EvalM α} (h : EvalM.Finds Q x) :
    Unrefused x := by
  cases h with
  | found => exact .pure _
  | missing hd => exact .malformed hd

theorem unrefused_boxColl (bs : List Box) : Unrefused (boxColl bs) :=
  .bind (.chargeItems _) fun _ => .pure _

theorem ContextField.unrefused_read (c : Context) (f : ContextField) : Unrefused (f.read c) := by
  cases f with
  | height => exact .lift (allowed_intOf _)
  | selfBox =>
    simp only [ContextField.read]
    split
    · exact .pure _
    · exact .fail (by simp)
  | inputs | outputs | dataInputs => exact unrefused_boxColl _
  | headers => exact .bind (.chargeItems _) fun _ => .pure _
  | preHeader | minerKey | stateDigest => exact .pure _

theorem unrefused_boolItems (v : Value) : Unrefused (boolItems v) := by
  refine .bind v.finds_asColl.unrefused fun c => .bind (.chargeItems _) fun _ => ?_
  split
  · exact .pure _
  · exact .malformed (by decide)

theorem unrefused_hashBytes (hash : Bytes → Octets 32) (v : Value) :
    Unrefused (hashBytes hash v) :=
  .bind v.finds_asBytes.unrefused fun _ => .bind (.charge _) fun _ => .pure _

theorem unrefused_sliceColl (c : Coll) (lower upper : Int32) :
    Unrefused (sliceColl c lower upper) :=
  .bind (.chargeItems _) fun _ => .pure _

theorem unrefused_atLeastOf (k : Int32) (c : Coll) : Unrefused (atLeastOf k c) :=
  .bind (finds_propositionItems c).unrefused fun _ => .check (.malformed (by decide))
    (.bind (.chargeItems _) fun _ => .pure _)

/-! ## Functions applied to items -/

section Functions

variable {sig : Signature} {body : Scope → EvalM Value} {sc : Scope}
  (hbody : ∀ i v, Unrefused (body (sc.bind i v)))
include hbody

theorem unrefused_applyFunction (arg : Value) : Unrefused (applyFunction sig body sc arg) := by
  unfold applyFunction
  split
  · exact .check (.malformed (by decide)) (.bind (.noteValue _) fun _ => .bind (hbody _ _) fun _ =>
      .check (.malformed (by decide)) (.pure _))
  · exact .malformed (by decide)

theorem unrefused_applyPredicate (arg : Value) : Unrefused (applyPredicate sig body sc arg) := by
  refine .bind (unrefused_applyFunction hbody arg) fun v => ?_
  split
  · exact .pure _
  · exact .malformed (by decide)

theorem unrefused_mapItems (vs : List Value) :
    Unrefused (mapItems (applyFunction sig body sc) vs) := by
  induction vs with
  | nil => exact .pure _
  | cons v vs ih =>
    exact .bind (unrefused_applyFunction hbody v) fun _ => .bind ih fun _ => .pure _

theorem unrefused_filterItems (vs : List Value) :
    Unrefused (filterItems (applyPredicate sig body sc) vs) := by
  induction vs with
  | nil => exact .pure _
  | cons v vs ih =>
    exact .bind (unrefused_applyPredicate hbody v) fun _ => .bind ih fun _ => .pure _

theorem unrefused_findItem (wanted : Bool) (vs : List Value) :
    Unrefused (findItem (applyPredicate sig body sc) wanted vs) := by
  induction vs with
  | nil => exact .pure _
  | cons v vs ih =>
    exact .bind (.chargeItems _) fun _ => .bind (unrefused_applyPredicate hbody v) fun _ =>
      .ite (.pure _) ih

theorem unrefused_foldItems (acc : Value) (vs : List Value) :
    Unrefused (foldItems (applyFunction sig body sc) acc vs) := by
  induction vs generalizing acc with
  | nil => exact .pure _
  | cons v vs ih => exact .bind (unrefused_applyFunction hbody _) fun _ => ih _

theorem LoopOp.unrefused_run (op : LoopOp) (c : Coll) : Unrefused (op.run sig body sc c) := by
  cases op with
  | map =>
    exact .bind (.chargeItems _) fun _ => .bind (unrefused_mapItems hbody _) fun _ =>
      (finds_collectItems ..).unrefused
  | filter =>
    exact .bind (.chargeItems _) fun _ => .bind (unrefused_filterItems hbody _) fun _ => .pure _
  | «exists» | forAll => exact .bind (unrefused_findItem hbody _ _) fun _ => .pure _

end Functions

/-! ## The evaluator -/

theorem Scope.depth_bind (sc : Scope) (id : UInt32) (v : Value) :
    (sc.bind id v).depth = sc.depth := rfl

/-- **The one place where depth is looked at.**  A node is let in at a depth that is allowed. -/
theorem unrefused_enter {sc : Scope} (hdepth : sc.depth ≤ maxExprDepth) (op : Opcode)
    {node : Scope → EvalM Value}
    (hnode : ∀ sc', sc'.depth = sc.depth + 1 → Unrefused (node sc')) :
    Unrefused (enter sc op node) := by
  simp only [enter, if_neg (Nat.not_lt.2 hdepth)]
  exact .bind (.charge _) fun _ => .bind (.note _) fun _ => .bind (hnode sc.deeper rfl) fun _ =>
    .bind (.noteValue _) fun _ => .pure _

theorem unrefused_resultOf (v : Value) : Unrefused (resultOf v) := by
  -- a proposition that is too deep is another error than an expression that is
  have accounted (p : Proposition) : Unrefused (α := Proposition) (do
      if maxDepth < p.depth then EvalM.malformed .propositionTooDeep
      EvalM.charge p.verificationCost
      return p) :=
    .check (.malformed (by decide)) (.bind (.charge _) fun _ => .pure _)
  simp only [resultOf]
  split
  · exact .bind (.pure _) accounted
  · exact .bind (.pure _) accounted
  · exact .bind (.malformed (by decide)) accounted

section

variable [Suite]

theorem Box.unrefused_read (b : Box) (f : BoxField) : Unrefused (b.read f) := by
  cases f with
  | value => exact .lift (allowed_longOf _)
  | creationHeight => exact .lift (allowed_intOf _)
  | scriptBytes | id => exact .pure _
  | tokens =>
    exact .bind (.chargeItems _) fun _ =>
      .bind (.lift (Allowed.mapM Token.allowed_toValue _)) fun _ => .pure _

theorem UnaryOp.unrefused_apply (v : Value) (op : UnaryOp) : Unrefused (op.apply v) := by
  cases op with
  | extract f => exact .bind v.finds_asBox.unrefused fun b => b.unrefused_read f
  | negate => exact .lift (allowed_negate v)
  | toBigInt => exact .lift (allowed_toBigInt v)
  | not | boolToSigma => exact .bind v.finds_asBool.unrefused fun _ => .pure _
  | allOf | anyOf => exact .bind (unrefused_boolItems v) fun _ => .pure _
  | sizeOf => exact .bind v.finds_asColl.unrefused fun _ => .lift (allowed_intOf _)
  | optionGet =>
    refine .bind v.finds_asOption.unrefused fun o => ?_
    split
    · exact .pure _
    · exact .failed _
  | optionIsDefined => exact .bind v.finds_asOption.unrefused fun _ => .pure _
  | sha256 | blake3 => exact unrefused_hashBytes _ v
  | proveDlog => exact .bind v.finds_asPoint.unrefused fun _ => .pure _

/-- Definitions leave the depth as it is. -/
theorem Expr.yields_depth_evalDefs {script : Scope → UInt8 → ValueType → EvalM Value}
    (ds : List (UInt32 × Expr)) (sc : Scope) :
    Yields (Expr.evalDefs script ds sc) fun sc' => sc'.depth = sc.depth := by
  induction ds generalizing sc with
  | nil => exact .pure rfl
  | cons d ds ih => exact .andThen fun v => ih (sc.bind d.1 v)

/-- **No node is refused for its depth** in an expression without scripts that fits below its scope,
when a body counts as one level. -/
theorem Expr.unrefused_evalWith {script : Scope → UInt8 → ValueType → EvalM Value} (e : Expr)
    (sc : Scope) : (∀ op ∈ e.opcodes, op ≠ .deserialize) →
      sc.depth + e.depth 1 ≤ maxExprDepth → Unrefused (e.evalWith script sc) := by
  -- one case for each node, for each of the three kinds of lists, and for their ends
  refine (Expr.evalWith.mutual_induct
    (motive_1 := fun e sc => (∀ op ∈ e.opcodes, op ≠ .deserialize) →
      sc.depth + e.depth 1 ≤ maxExprDepth → Unrefused (e.evalWith script sc))
    (motive_2 := fun es sc => (∀ op ∈ Expr.opcodesAll es, op ≠ .deserialize) →
      sc.depth + Expr.depthAll 1 es ≤ maxExprDepth + 1 →
        Unrefused (Expr.evalPropositions script es sc))
    (motive_3 := fun es sc => (∀ op ∈ Expr.opcodesAll es, op ≠ .deserialize) →
      sc.depth + Expr.depthAll 1 es ≤ maxExprDepth + 1 → Unrefused (Expr.evalAll script es sc))
    (motive_4 := fun ds sc => (∀ op ∈ Expr.opcodesDefs ds, op ≠ .deserialize) →
      sc.depth + Expr.depthDefs 1 ds ≤ maxExprDepth + 1 → Unrefused (Expr.evalDefs script ds sc))
    ?const ?placeholder ?use ?block ?tuple ?sigmaAnd ?sigmaOr ?collOf ?context ?getVar ?unary
    ?register ?record ?arith ?compare ?and ?or ?orElse ?atLeast ?ifThenElse ?slice ?byIndex
    ?byIndexOr ?loop ?fold ?select ?dhTuple ?deserialize ?defsNil ?defsCons ?propsNil ?propsCons
    ?allNil ?allCons).1 e sc
  all_goals
    intros
    simp only [Expr.evalWith, Expr.evalPropositions, Expr.evalAll, Expr.evalDefs]
    -- the depth of a node above that of its parts, and of a list above that of its items
    simp only [Expr.depth, Expr.depthAll, Expr.depthDefs] at *
  case const h hdepth => exact unrefused_enter (by omega) _ fun _ _ => .pure _
  case placeholder h hdepth | use h hdepth =>
    refine unrefused_enter (by omega) _ fun sc' _ => ?_
    split
    · exact .pure _
    · exact .malformed (by decide)
  case block ds e sc hds he h hdepth =>
    obtain ⟨-, h⟩ := List.forall_mem_cons.1 h
    obtain ⟨hd, hbody⟩ := List.forall_mem_append.1 h
    exact unrefused_enter (by omega) _ fun sc' hsc => .bindThen (hds sc' hd (by omega))
      (Expr.yields_depth_evalDefs ds sc') fun sc'' hsc' => he sc'' hbody (by omega)
  case tuple hes h hdepth | sigmaAnd hes h hdepth | sigmaOr hes h hdepth =>
    obtain ⟨-, h⟩ := List.forall_mem_cons.1 h
    exact unrefused_enter (by omega) _ fun sc' hsc => .check (.malformed (by decide))
      (.bind (hes sc' h (by omega)) fun _ => .pure _)
  case collOf hes h hdepth =>
    obtain ⟨-, h⟩ := List.forall_mem_cons.1 h
    exact unrefused_enter (by omega) _ fun sc' hsc => .bind (.chargeItems _) fun _ =>
      .bind (hes sc' h (by omega)) fun _ => (finds_collectItems ..).unrefused
  case context f _ h hdepth => exact unrefused_enter (by omega) _ fun _ _ => f.unrefused_read _
  case getVar h hdepth =>
    exact unrefused_enter (by omega) _ fun _ _ => .lift (allowed_readTyped (by decide) _ _)
  case unary op _ _ he h hdepth =>
    obtain ⟨-, h⟩ := List.forall_mem_cons.1 h
    exact unrefused_enter (by omega) _ fun sc' hsc => .bind (he sc' h (by omega))
      fun v => op.unrefused_apply v
  case register he h hdepth =>
    obtain ⟨-, h⟩ := List.forall_mem_cons.1 h
    exact unrefused_enter (by omega) _ fun sc' hsc => .bind (he sc' h (by omega))
      fun v => .bind v.finds_asBox.unrefused fun _ => .lift (allowed_readTyped (by decide) _ _)
  case record f _ _ he h hdepth =>
    obtain ⟨-, h⟩ := List.forall_mem_cons.1 h
    exact unrefused_enter (by omega) _ fun sc' hsc => .bind (he sc' h (by omega))
      fun v => .lift (f.allowed_read v)
  case arith op _ _ _ ha hb h hdepth =>
    obtain ⟨-, h⟩ := List.forall_mem_cons.1 h
    obtain ⟨h, h'⟩ := List.forall_mem_append.1 h
    exact unrefused_enter (by omega) _ fun sc' hsc => .bind (ha sc' h (by omega)) fun x =>
      .bind (hb sc' h' (by omega)) fun y =>
        .lift (Allowed.bind (Operands.allowed_ofValues x y) fun o => op.allowed_apply o)
  case compare op _ _ _ ha hb h hdepth =>
    obtain ⟨-, h⟩ := List.forall_mem_cons.1 h
    obtain ⟨h, h'⟩ := List.forall_mem_append.1 h
    exact unrefused_enter (by omega) _ fun sc' hsc => .bind (ha sc' h (by omega)) fun x =>
      .bind (hb sc' h' (by omega)) fun y => .lift (op.allowed_apply x y)
  case and ha hb h hdepth =>
    obtain ⟨-, h⟩ := List.forall_mem_cons.1 h
    obtain ⟨h, h'⟩ := List.forall_mem_append.1 h
    exact unrefused_enter (by omega) _ fun sc' hsc => .bind (ha sc' h (by omega)) fun v =>
      .bind v.finds_asBool.unrefused fun _ => .ite (.bind (hb sc' h' (by omega)) fun w =>
        .bind w.finds_asBool.unrefused fun _ => .pure _) (.pure _)
  case or ha hb h hdepth =>
    obtain ⟨-, h⟩ := List.forall_mem_cons.1 h
    obtain ⟨h, h'⟩ := List.forall_mem_append.1 h
    exact unrefused_enter (by omega) _ fun sc' hsc => .bind (ha sc' h (by omega)) fun v =>
      .bind v.finds_asBool.unrefused fun _ => .ite (.pure _) (.bind (hb sc' h' (by omega)) fun w =>
        .bind w.finds_asBool.unrefused fun _ => .pure _)
  case orElse ha hb h hdepth =>
    obtain ⟨-, h⟩ := List.forall_mem_cons.1 h
    obtain ⟨h, h'⟩ := List.forall_mem_append.1 h
    refine unrefused_enter (by omega) _ fun sc' hsc => .bind (ha sc' h (by omega)) fun v =>
      .bind v.finds_asOption.unrefused fun o => ?_
    split
    · exact .pure _
    · exact hb sc' h' (by omega)
  case atLeast ha hb h hdepth =>
    obtain ⟨-, h⟩ := List.forall_mem_cons.1 h
    obtain ⟨h, h'⟩ := List.forall_mem_append.1 h
    exact unrefused_enter (by omega) _ fun sc' hsc => .bind (ha sc' h (by omega)) fun v =>
      .bind v.finds_asInt.unrefused fun k => .bind (hb sc' h' (by omega)) fun w =>
      .bind w.finds_asColl.unrefused fun c => unrefused_atLeastOf k c
  case ifThenElse ha hb hc h hdepth =>
    obtain ⟨-, h⟩ := List.forall_mem_cons.1 h
    obtain ⟨h, h''⟩ := List.forall_mem_append.1 h
    obtain ⟨h, h'⟩ := List.forall_mem_append.1 h
    exact unrefused_enter (by omega) _ fun sc' hsc => .bind (ha sc' h (by omega)) fun v =>
      .bind v.finds_asBool.unrefused fun _ => .ite (hb sc' h' (by omega)) (hc sc' h'' (by omega))
  case slice ha hb hc h hdepth =>
    obtain ⟨-, h⟩ := List.forall_mem_cons.1 h
    obtain ⟨h, h''⟩ := List.forall_mem_append.1 h
    obtain ⟨h, h'⟩ := List.forall_mem_append.1 h
    exact unrefused_enter (by omega) _ fun sc' hsc => .bind (ha sc' h (by omega)) fun v =>
      .bind v.finds_asColl.unrefused fun c => .bind (hb sc' h' (by omega)) fun v =>
      .bind v.finds_asInt.unrefused fun l => .bind (hc sc' h'' (by omega)) fun v =>
      .bind v.finds_asInt.unrefused fun u => unrefused_sliceColl c l u
  case byIndex ha hb h hdepth =>
    obtain ⟨-, h⟩ := List.forall_mem_cons.1 h
    obtain ⟨h, h'⟩ := List.forall_mem_append.1 h
    refine unrefused_enter (by omega) _ fun sc' hsc => .bind (ha sc' h (by omega)) fun v =>
      .bind v.finds_asColl.unrefused fun c => .bind (hb sc' h' (by omega)) fun v =>
      .bind v.finds_asInt.unrefused fun i => ?_
    split
    · exact .pure _
    · exact .failed _
  case byIndexOr ha hb hd h hdepth =>
    obtain ⟨-, h⟩ := List.forall_mem_cons.1 h
    obtain ⟨h, h''⟩ := List.forall_mem_append.1 h
    obtain ⟨h, h'⟩ := List.forall_mem_append.1 h
    refine unrefused_enter (by omega) _ fun sc' hsc => .bind (ha sc' h (by omega)) fun v =>
      .bind v.finds_asColl.unrefused fun c => .bind (hb sc' h' (by omega)) fun v =>
      .bind v.finds_asInt.unrefused fun i => ?_
    split
    · exact .pure _
    · exact hd sc' h'' (by omega)
  case loop op _ _ _ _ ha hbody h hdepth =>
    obtain ⟨-, h⟩ := List.forall_mem_cons.1 h
    obtain ⟨h, h'⟩ := List.forall_mem_append.1 h
    exact unrefused_enter (by omega) _ fun sc' hsc => .bind (ha sc' h (by omega)) fun v =>
      .bind v.finds_asColl.unrefused fun c =>
        op.unrefused_run (fun i w => hbody (sc'.bind i w) h' (by rw [Scope.depth_bind]; omega)) c
  case fold ha hzero hbody h hdepth =>
    obtain ⟨-, h⟩ := List.forall_mem_cons.1 h
    obtain ⟨h, h''⟩ := List.forall_mem_append.1 h
    obtain ⟨h, h'⟩ := List.forall_mem_append.1 h
    exact unrefused_enter (by omega) _ fun sc' hsc => .bind (ha sc' h (by omega)) fun v =>
      .bind v.finds_asColl.unrefused fun c => .bind (hzero sc' h' (by omega)) fun acc =>
      .bind (.chargeItems _) fun _ => unrefused_foldItems (fun i w => hbody (sc'.bind i w) h'' (by
        rw [Scope.depth_bind]
        omega)) acc _
  case select he h hdepth =>
    obtain ⟨-, h⟩ := List.forall_mem_cons.1 h
    exact unrefused_enter (by omega) _ fun sc' hsc => .bind (he sc' h (by omega))
      fun v => (finds_selectItem v _).unrefused
  case dhTuple hg hh hu hv h hdepth =>
    obtain ⟨-, h⟩ := List.forall_mem_cons.1 h
    obtain ⟨h, h₄⟩ := List.forall_mem_append.1 h
    obtain ⟨h, h₃⟩ := List.forall_mem_append.1 h
    obtain ⟨h₁, h₂⟩ := List.forall_mem_append.1 h
    exact unrefused_enter (by omega) _ fun sc' hsc =>
      .bind (hg sc' h₁ (by omega)) fun v => .bind v.finds_asPoint.unrefused fun _ =>
      .bind (hh sc' h₂ (by omega)) fun v => .bind v.finds_asPoint.unrefused fun _ =>
      .bind (hu sc' h₃ (by omega)) fun v => .bind v.finds_asPoint.unrefused fun _ =>
      .bind (hv sc' h₄ (by omega)) fun v => .bind v.finds_asPoint.unrefused fun _ => .pure _
  case deserialize h _ => exact absurd rfl (h _ (List.mem_singleton.2 rfl))
  case defsNil | propsNil | allNil => exact .pure _
  case defsCons he hds h hdepth =>
    obtain ⟨h, h'⟩ := List.forall_mem_append.1 h
    exact .bind (he h (by omega)) fun v => hds v h' (by rw [Scope.depth_bind]; omega)
  case propsCons he hes h hdepth =>
    obtain ⟨h, h'⟩ := List.forall_mem_append.1 h
    exact .bind (he h (by omega)) fun v => .bind v.finds_asProposition.unrefused fun _ =>
      .bind (hes h' (by omega)) fun _ => .pure _
  case allCons he hes h hdepth =>
    obtain ⟨h, h'⟩ := List.forall_mem_append.1 h
    exact .bind (he h (by omega)) fun _ => .bind (hes h' (by omega)) fun _ => .pure _

/-! ## Reducing and reading back -/

namespace Condition

variable {c : Condition}

theorem unrefused_run (hscripts : ∀ e ∈ c.root?, .deserialize ∉ e.opcodes)
    (hdepth : ∀ e ∈ c.root?, e.depth 1 ≤ maxExprDepth) (ctx : Context) :
    Unrefused (c.run ctx) := by
  unfold run
  split
  · exact .fail (by simp)
  · rename_i e he
    have hops : ∀ op ∈ e.opcodes, op ≠ .deserialize := fun op hop h => hscripts e he (h ▸ hop)
    -- the root is at level one, where evaluation starts counting
    have hlevels : (c.scope ctx).depth + e.depth 1 ≤ maxExprDepth := by
      rw [scope, Nat.zero_add]
      exact hdepth e he
    exact .check (.fail (by simp)) (.bind (e.unrefused_evalWith _ hops hlevels) unrefused_resultOf)

/-- **A condition without scripts that is not too deep** is not refused for its depth. -/
theorem reduce_ne_tooDeep (hscripts : ∀ e ∈ c.root?, .deserialize ∉ e.opcodes)
    (hdepth : ∀ e ∈ c.root?, e.depth 1 ≤ maxExprDepth) (ctx : Context) (limit : UInt64) :
    c.reduce ctx limit ≠ .error (.malformedCondition .tooDeep) := by
  have hrun := unrefused_run hscripts hdepth ctx (Meter.new limit)
  unfold reduce
  split
  · simp
  · rename_i e m hfail
    rw [hfail] at hrun
    exact fun h => hrun (congrArg Except.error (Except.error.inj h))

end Condition

/-- **What the two counts of depth mean.**  An expression with room for every node is read back
exactly when it is within the limit by the decoder's count, where the body of a function is two
levels below its node.  A condition without scripts whose expression is within the limit by the
evaluator's count, where it is one, is never refused for its depth.  The decoder's count is at least
the evaluator's and at most twice as much; so the second holds of every condition that was read, and
the first of every expression within half the limit. -/
theorem Expr.depth_counts :
    (∀ e : Expr, e.Fits → ((Expr.decoder e.requiredVersion).exactly e.toBytes = .ok e ↔
      e.depth 2 ≤ maxExprDepth)) ∧
    (∀ e : Expr, e.depth 1 ≤ e.depth 2 ∧ e.depth 2 ≤ 2 * e.depth 1) ∧
    (∀ c : Condition, (∀ e ∈ c.root?, .deserialize ∉ e.opcodes ∧ e.depth 1 ≤ maxExprDepth) →
      ∀ ctx limit, c.reduce ctx limit ≠ .error (.malformedCondition .tooDeep)) ∧
    ∀ (b : Bytes) (c : Condition), Condition.ofBytes b = .ok c →
      (∀ e ∈ c.root?, .deserialize ∉ e.opcodes) →
      ∀ ctx limit, c.reduce ctx limit ≠ .error (.malformedCondition .tooDeep) := by
  refine ⟨fun e h => exactly_toBytes_iff h, fun e => ⟨depth_mono (by decide) e, depth_two_le e⟩,
    fun c h => c.reduce_ne_tooDeep (fun e he => (h e he).1) fun e he => (h e he).2, ?_⟩
  intro b c hread hscripts
  refine c.reduce_ne_tooDeep hscripts fun e he => ?_
  exact Nat.le_trans (depth_mono (by decide) e) (Condition.shallow_of_ofBytes hread e he)

end

/-! ## Negations over a loop -/

/-- An expression behind so many negations. -/
def negated : Nat → Expr → Expr
  | 0, e => e
  | n + 1, e => .unary .not (negated n e)

/-- Whether all items of a collection are true. -/
def allTrue : Expr :=
  .loop .forAll (.const (.seq .bool [.bool true])) ⟨[(1, .bool)], .bool⟩ (.use 1)

theorem fits_negated {e : Expr} (h : e.Fits) (n : Nat) : (negated n e).Fits := by
  induction n with
  | zero => exact h
  | succ n ih =>
    exact .node True.intro (List.forall_mem_nil _) (List.forall_mem_singleton.2 ih)
      (List.forall_mem_nil _)

theorem fits_allTrue : allTrue.Fits := by
  have hflag : ValueType.bool.Encodable := ⟨by decide, True.intro⟩
  have hflags : (Value.seq .bool [.bool true]).Encodable :=
    .intro ⟨by decide, True.intro⟩ (.seq (by decide) (by simp [Value.type, Atom.type]) (by decide)
      (List.forall_mem_singleton.2 (.atom True.intro)))
  refine .node ⟨by decide, List.forall_mem_singleton.2 hflag, hflag⟩
    (List.forall_mem_nil _) (List.forall_mem_singleton.2 (.const hflags))
    (List.forall_mem_singleton.2 ?_)
  exact .leaf True.intro rfl rfl rfl

/-- Behind three negations, the loop is read back and evaluated. -/
theorem Expr.depth_counts_negated :
    (negated 3 allTrue).Fits ∧
    (Expr.decoder (negated 3 allTrue).requiredVersion).exactly (negated 3 allTrue).toBytes =
      .ok (negated 3 allTrue) ∧
    ∀ ctx limit, (Condition.new (negated 3 allTrue)).reduce ctx limit ≠
      .error (.malformedCondition .tooDeep) := by
  have hfits := fits_negated fits_allTrue 3
  have hroot : ∀ e ∈ (Condition.new (negated 3 allTrue)).root?,
      .deserialize ∉ e.opcodes ∧ e.depth 1 ≤ maxExprDepth := by
    rintro _ ⟨⟩
    decide
  exact ⟨hfits, (depth_counts.1 _ hfits).2 (by decide), depth_counts.2.2.1 _ hroot⟩

/-- **The counts differ at the limit.**  Behind thirty-nine negations, the deepest node of the loop
is forty levels down to the evaluator, which lets it in, and forty-one to the decoder, which does
not: the condition is run, and its expression is not read back.  One more negation is too much for
the evaluator as well. -/
theorem Expr.not_read_back_negated :
    (negated 39 allTrue).Fits ∧ (negated 39 allTrue).depth 1 = maxExprDepth ∧
    (Expr.decoder (negated 39 allTrue).requiredVersion).exactly (negated 39 allTrue).toBytes =
      .error (.invalidFormat .expressionTooDeep) ∧
    (Condition.new (negated 39 allTrue)).reduce .blank 1000 = .ok ⟨.trivial false, 414⟩ ∧
    (Condition.new (negated 40 allTrue)).reduce .blank 1000 =
      .error (.malformedCondition .tooDeep) :=
  ⟨fits_negated fits_allTrue 39, by decide, by decide +kernel, by decide +kernel,
    by decide +kernel⟩

end Covenant

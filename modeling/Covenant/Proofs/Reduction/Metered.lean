/-
  METERED — what an evaluation can do to its meter.

  An evaluation touches its meter in three ways only: it spends, it writes into the journal, and it
  notes a value together with what was spent so far.  Everything else it does is to return or to
  fail.  `Metered A` says so of a computation, and that all operations it notes are in `A`;
  `Expr.metered_evalWith` says that every expression evaluates to such a computation, whatever is
  done with scripts read from variables, when `A` holds of the operations of its nodes.

  A property of runs that survives these steps and sequencing holds of whole evaluations.  The first
  of them are here: the total never falls, never passes the limit, and the limit stays
  (`Metered.run_meter`); and no operation gets into the journal that is not in `A`
  (`Metered.mem_journal`).
-/
import Covenant.Proofs.Reduction.Readings

namespace Covenant

/-- Made of charges, journal entries, results and failures; the operations noted are in `A`. -/
inductive Metered (A : Opcode → Prop) : {α : Type} → EvalM α → Prop
  | pure {α : Type} (a : α) : Metered A (Pure.pure a)
  | fail {α : Type} (e : ReductionError) : Metered A (throw e : EvalM α)
  | charge (cost : Nat) : Metered A (EvalM.charge cost)
  | note (s : Step) (hs : ∀ op, s = .node op → A op) : Metered A (EvalM.note s)
  | noteValue (v : Value) : Metered A (EvalM.noteValue v)
  | bind {α β : Type} {x : EvalM α} {f : α → EvalM β} (hx : Metered A x)
      (hf : ∀ a, Metered A (f a)) : Metered A (x >>= f)

variable {A : Opcode → Prop}

namespace Metered

variable {α : Type}

/-! ## The smallest computations -/

theorem malformed (d : ConditionDefect) : Metered A (EvalM.malformed d : EvalM α) := .fail _

theorem lift (r : Except ReductionError α) : Metered A (EvalM.lift r) := by
  cases r with
  | ok a => exact .pure a
  | error e => exact .fail e

/-- A step that spends nothing, of which only the results it has go on. -/
theorem liftThen {β : Type} {r : Except ReductionError α} {f : α → EvalM β}
    (hf : ∀ a, r = .ok a → Metered A (f a)) : Metered A (EvalM.lift r >>= f) := by
  cases r with
  | ok a => exact hf a rfl
  | error e => exact .fail e

theorem chargeUnits (units price : Nat) : Metered A (EvalM.chargeUnits units price) := .charge _

theorem chargeItems (n : Nat) : Metered A (EvalM.chargeItems n) :=
  .bind (chargeUnits ..) fun _ => .note _ fun _ h => by cases h

/-- A check in front of a computation. -/
theorem check {c : Prop} [Decidable c] {x : EvalM PUnit} {y : EvalM α} (hx : Metered A x)
    (hy : Metered A y) : Metered A (if c then x >>= fun _ => y else y) := by
  split
  · exact .bind hx fun _ => hy
  · exact hy

theorem ite {c : Prop} [Decidable c] {x y : EvalM α} (hx : Metered A x) (hy : Metered A y) :
    Metered A (if c then x else y) := by
  split
  · exact hx
  · exact hy

end Metered

/-! ## Running -/

namespace EvalM

variable {α β : Type}

@[simp] theorem run_pure (a : α) (m : Meter) : (pure a : EvalM α).run m = (.ok a, m) := rfl

@[simp] theorem run_throw (e : ReductionError) (m : Meter) :
    (throw e : EvalM α).run m = (.error e, m) := rfl

@[simp] theorem run_note (s : Step) (m : Meter) : (note s).run m = (.ok (), m.note s) := rfl

@[simp] theorem run_noteValue (v : Value) (m : Meter) :
    (noteValue v).run m = (.ok (), m.note (.value v m.spent)) := rfl

theorem run_bind (x : EvalM α) (f : α → EvalM β) (m : Meter) :
    (x >>= f).run m = match x.run m with
      | (.ok a, m') => (f a).run m'
      | (.error e, m') => (.error e, m') := by
  show (match x.run m with | (r, m') => (ExceptT.bindCont f r) m') = _
  rcases x.run m with ⟨r, m'⟩
  cases r <;> rfl

theorem run_bind_of_ok {x : EvalM α} {f : α → EvalM β} {m m' : Meter} {a : α}
    (h : x.run m = (.ok a, m')) : (x >>= f).run m = (f a).run m' := by
  rw [run_bind, h]

theorem run_bind_eq_ok {x : EvalM α} {f : α → EvalM β} {m m' : Meter} {b : β} :
    (x >>= f).run m = (.ok b, m') ↔
      ∃ a m₁, x.run m = (.ok a, m₁) ∧ (f a).run m₁ = (.ok b, m') := by
  rw [run_bind]
  constructor
  · intro h
    split at h
    · rename_i a m₁ hx
      exact ⟨a, m₁, hx, h⟩
    · cases h
  · rintro ⟨a, m₁, hx, hf⟩
    rw [hx]
    exact hf

@[simp] theorem run_lift (r : Except ReductionError α) (m : Meter) :
    (lift r).run m = (r, m) := by
  cases r <;> rfl

theorem run_charge (cost : Nat) (m : Meter) :
    (charge cost).run m =
      if m.limit < addCost m.spent cost then
        (.error (.costLimitExceeded (addCost m.spent cost) m.limit), m)
      else (.ok (), { m with spent := addCost m.spent cost }) := by
  have hget : (get : EvalM Meter).run m = (.ok m, m) := rfl
  simp only [charge, run_bind, hget, Meter.add]
  split
  · rename_i next hok
    -- the sum was within the limit
    split at hok <;> cases hok
    rw [if_neg ‹_›]
    rfl
  · rename_i e herr
    split at herr <;> cases herr
    rw [if_pos ‹_›]
    rfl

theorem run_charge_bind (cost : Nat) (f : Unit → EvalM β) (m : Meter) :
    (charge cost >>= f).run m =
      if m.limit < addCost m.spent cost then
        (.error (.costLimitExceeded (addCost m.spent cost) m.limit), m)
      else (f ()).run { m with spent := addCost m.spent cost } := by
  rw [run_bind, run_charge]
  by_cases hlow : m.limit < addCost m.spent cost
  · rw [if_pos hlow, if_pos hlow]
  · rw [if_neg hlow, if_neg hlow]

end EvalM

/-- **Running a node** at a depth that is allowed: it pays, it runs, and it notes what comes out. -/
theorem run_enter_eq {sc : Scope} {op : Opcode} (hdepth : sc.depth ≤ maxExprDepth)
    (node : Scope → EvalM Value) (m : Meter) :
    (enter sc op node).run m = match m.add op.cost with
      | .error e => (.error e, m)
      | .ok paid => match (node sc.deeper).run (paid.note (.node op)) with
        | (.error e, m') => (.error e, m')
        | (.ok v, m') => (.ok v, m'.note (.value v m'.spent)) := by
  simp only [enter, if_neg (Nat.not_lt.2 hdepth)]
  rw [EvalM.run_charge_bind, Meter.add]
  -- the price is asked first: a node that cannot be paid leaves no trace
  by_cases hlow : m.limit < addCost m.spent op.cost
  · simp only [if_pos hlow]
  · simp only [if_neg hlow]
    rw [EvalM.run_bind, EvalM.run_note]
    dsimp only
    rw [EvalM.run_bind]
    rcases (node sc.deeper).run _ with ⟨_ | v, m'⟩ <;> rfl

/-- A meter that has not passed its limit, which is itself a cost. -/
structure Meter.Within (m : Meter) : Prop where
  spent_le : m.spent ≤ m.limit
  limit_le : m.limit ≤ maxCost

theorem Meter.within_new (limit : UInt64) : (Meter.new limit).Within :=
  ⟨Nat.zero_le _, Nat.le_of_lt_succ limit.toNat_lt⟩

/-- **What a run does to its meter**: the total does not fall and does not pass the limit, which
stays what it was. -/
theorem Metered.run_meter {α : Type} {x : EvalM α} (hx : Metered A x) {m : Meter} (hm : m.Within) :
    m.spent ≤ (x.run m).2.spent ∧ (x.run m).2.limit = m.limit ∧ (x.run m).2.Within := by
  induction hx generalizing m with
  | pure | fail | note | noteValue => exact ⟨Nat.le_refl _, rfl, hm.spent_le, hm.limit_le⟩
  | charge cost =>
    have := hm.spent_le
    have := hm.limit_le
    rw [EvalM.run_charge]
    split
    · exact ⟨Nat.le_refl _, rfl, hm⟩
    · rename_i hle
      -- sums stop at the largest cost, which is no less than what was spent
      refine ⟨?_, rfl, Nat.not_lt.1 hle, hm.limit_le⟩
      simp only [addCost]
      omega
  | @bind α β x f _ _ ihx ihf =>
    obtain ⟨h₁, h₂, h₃⟩ := ihx hm
    rw [EvalM.run_bind]
    rcases hr : x.run m with ⟨r, m'⟩
    rw [hr] at h₁ h₂ h₃
    cases r with
    | error e => exact ⟨h₁, h₂, h₃⟩
    | ok a =>
      obtain ⟨k₁, k₂, k₃⟩ := ihf a h₃
      exact ⟨Nat.le_trans h₁ k₁, k₂.trans h₂, k₃⟩

/-- **What a run does to its journal**: an operation in there was there before or is in `A`, whether
the run fails or not. -/
theorem Metered.mem_journal {α : Type} {x : EvalM α} (hx : Metered A x) {m : Meter} {op : Opcode}
    (h : .node op ∈ (x.run m).2.journal) : .node op ∈ m.journal ∨ A op := by
  induction hx generalizing m with
  | pure | fail => exact .inl h
  | charge cost =>
    rw [EvalM.run_charge] at h
    split at h <;> exact .inl h
  | note s hs =>
    rcases List.mem_cons.1 h with hnode | h
    · exact .inr (hs op hnode.symm)
    · exact .inl h
  | noteValue v =>
    rcases List.mem_cons.1 h with hnode | h
    · cases hnode
    · exact .inl h
  | bind _ _ ihx ihf =>
    rw [EvalM.run_bind] at h
    split at h
    · rename_i a m' hrun
      -- what the rest finds in the journal was noted by the first part, by itself, or before both
      rcases ihf a h with h | h
      · exact ihx (by rw [hrun]; exact h)
      · exact .inr h
    · rename_i e m' hrun
      exact ihx (by rw [hrun]; exact h)

/-- A look at a value leaves the meter alone. -/
theorem EvalM.Finds.metered {α : Type} {Q : α → Prop} {x : EvalM α} (h : EvalM.Finds Q x) :
    Metered A x := by
  cases h with
  | found => exact .pure _
  | missing => exact .malformed _

/-! ## Operations on values -/

theorem metered_boxColl (bs : List Box) : Metered A (boxColl bs) :=
  .bind (.chargeItems _) fun _ => .pure _

theorem ContextField.metered_read (c : Context) (f : ContextField) : Metered A (f.read c) := by
  cases f with
  | height => exact .lift _
  | selfBox =>
    simp only [ContextField.read]
    split <;> constructor
  | inputs | outputs | dataInputs => exact metered_boxColl _
  | headers => exact .bind (.chargeItems _) fun _ => .pure _
  | preHeader | minerKey | stateDigest => exact .pure _

theorem metered_boolItems (v : Value) : Metered A (boolItems v) := by
  refine .bind v.finds_asColl.metered fun c => .bind (.chargeItems _) fun _ => ?_
  split <;> constructor

theorem metered_hashBytes (hash : Bytes → Octets 32) (v : Value) : Metered A (hashBytes hash v) :=
  .bind v.finds_asBytes.metered fun _ => .bind (.chargeUnits ..) fun _ => .pure _

theorem metered_sliceColl (c : Coll) (lower upper : Int32) : Metered A (sliceColl c lower upper) :=
  .bind (.chargeItems _) fun _ => .pure _

theorem metered_atLeastOf (k : Int32) (c : Coll) : Metered A (atLeastOf k c) :=
  .bind (finds_propositionItems c).metered fun _ =>
    .check (.malformed _) (.bind (.chargeItems _) fun _ => .pure _)

/-! ## Functions applied to items -/

section Functions

variable {sig : Signature} {body : Scope → EvalM Value} (hbody : ∀ sc, Metered A (body sc))
include hbody

theorem metered_applyFunction (sc : Scope) (arg : Value) :
    Metered A (applyFunction sig body sc arg) := by
  unfold applyFunction
  split
  · exact .check (.malformed _) (.bind (.noteValue _) fun _ => .bind (hbody _) fun _ =>
      .check (.malformed _) (.pure _))
  · exact .malformed _

theorem metered_applyPredicate (sc : Scope) (arg : Value) :
    Metered A (applyPredicate sig body sc arg) := by
  refine .bind (metered_applyFunction hbody sc arg) fun v => ?_
  split <;> constructor

end Functions

theorem metered_mapItems {f : Value → EvalM Value} (hf : ∀ v, Metered A (f v)) (vs : List Value) :
    Metered A (mapItems f vs) := by
  induction vs with
  | nil => exact .pure _
  | cons v vs ih => exact .bind (hf v) fun _ => .bind ih fun _ => .pure _

theorem metered_filterItems {p : Value → EvalM Bool} (hp : ∀ v, Metered A (p v)) (vs : List Value) :
    Metered A (filterItems p vs) := by
  induction vs with
  | nil => exact .pure _
  | cons v vs ih => exact .bind (hp v) fun _ => .bind ih fun _ => .pure _

theorem metered_findItem {p : Value → EvalM Bool} (hp : ∀ v, Metered A (p v)) (wanted : Bool)
    (vs : List Value) : Metered A (findItem p wanted vs) := by
  induction vs with
  | nil => exact .pure _
  | cons v vs ih =>
    exact .bind (.chargeItems _) fun _ => .bind (hp v) fun _ => .ite (.pure _) ih

theorem metered_foldItems {f : Value → EvalM Value} (hf : ∀ v, Metered A (f v)) (acc : Value)
    (vs : List Value) : Metered A (foldItems f acc vs) := by
  induction vs generalizing acc with
  | nil => exact .pure _
  | cons v vs ih => exact .bind (hf _) fun _ => ih _

theorem LoopOp.metered_run (op : LoopOp) {sig : Signature} {body : Scope → EvalM Value}
    (hbody : ∀ sc, Metered A (body sc)) (sc : Scope) (c : Coll) :
    Metered A (op.run sig body sc c) := by
  cases op with
  | map =>
    exact .bind (.chargeItems _) fun _ =>
      .bind (metered_mapItems (metered_applyFunction hbody sc) _) fun _ =>
        (finds_collectItems ..).metered
  | filter =>
    exact .bind (.chargeItems _) fun _ =>
      .bind (metered_filterItems (metered_applyPredicate hbody sc) _) fun _ => .pure _
  | «exists» | forAll =>
    exact .bind (metered_findItem (metered_applyPredicate hbody sc) _ _) fun _ => .pure _

theorem metered_scriptOctets (x : Extension) (id : UInt8) : Metered A (scriptOctets x id) := by
  unfold scriptOctets; split <;> constructor

/-! ## The evaluator -/

theorem metered_enter (sc : Scope) {op : Opcode} (hop : A op) {node : Scope → EvalM Value}
    (hnode : ∀ sc, Metered A (node sc)) : Metered A (enter sc op node) := by
  have hnoted (op' : Opcode) (h : Step.node op = .node op') : A op' := by
    cases h
    exact hop
  exact .check (.malformed _) (.bind (.charge _) fun _ => .bind (.note _ hnoted) fun _ =>
    .bind (hnode _) fun _ => .bind (.noteValue _) fun _ => .pure _)

theorem metered_resultOf (v : Value) : Metered A (resultOf v) := by
  have accounted (p : Proposition) : Metered A (α := Proposition) (do
      if maxDepth < p.depth then EvalM.malformed .propositionTooDeep
      EvalM.charge p.verificationCost
      return p) :=
    .check (.malformed _) (.bind (.charge _) fun _ => .pure _)
  simp only [resultOf]
  split <;> exact .bind (by constructor) accounted

variable [Suite]

theorem Box.metered_read (b : Box) (f : BoxField) : Metered A (b.read f) := by
  cases f with
  | value | creationHeight => exact .lift _
  | scriptBytes | id => exact .pure _
  | tokens => exact .bind (.chargeItems _) fun _ => .bind (.lift _) fun _ => .pure _

theorem UnaryOp.metered_apply (v : Value) (op : UnaryOp) : Metered A (op.apply v) := by
  cases op with
  | extract f => exact .bind v.finds_asBox.metered fun b => b.metered_read f
  | negate | toBigInt => exact .lift _
  | not | boolToSigma => exact .bind v.finds_asBool.metered fun _ => .pure _
  | allOf | anyOf => exact .bind (metered_boolItems v) fun _ => .pure _
  | sizeOf => exact .bind v.finds_asColl.metered fun _ => .lift _
  | optionGet => exact .bind v.finds_asOption.metered fun o => by split <;> constructor
  | optionIsDefined => exact .bind v.finds_asOption.metered fun _ => .pure _
  | sha256 | blake3 => exact metered_hashBytes _ v
  | proveDlog => exact .bind v.finds_asPoint.metered fun _ => .pure _

omit [Suite] in
/-- A node's own operation comes first among its operations. -/
theorem Expr.opcode_mem (e : Expr) : e.opcode ∈ e.opcodes := by
  cases e with
  | byIndex c i default => cases default <;> exact List.mem_cons_self
  | _ => exact List.mem_cons_self

/-- **Every expression is metered**, given that scripts read from variables are: it notes the
operations of its nodes and those that the scripts note. -/
theorem Expr.metered_evalWith {script : Scope → UInt8 → ValueType → EvalM Value}
    (hscript : ∀ sc i t, Metered A (script sc i t)) (e : Expr) (sc : Scope) :
    (∀ op ∈ e.opcodes, A op) → Metered A (e.evalWith script sc) := by
  -- one case for each node, for each of the three kinds of lists, and for their ends
  refine (Expr.evalWith.mutual_induct
    (motive_1 := fun e sc => (∀ op ∈ e.opcodes, A op) → Metered A (e.evalWith script sc))
    (motive_2 := fun es sc => (∀ op ∈ Expr.opcodesAll es, A op) →
      Metered A (Expr.evalPropositions script es sc))
    (motive_3 := fun es sc => (∀ op ∈ Expr.opcodesAll es, A op) →
      Metered A (Expr.evalAll script es sc))
    (motive_4 := fun ds sc => (∀ op ∈ Expr.opcodesDefs ds, A op) →
      Metered A (Expr.evalDefs script ds sc))
    ?const ?placeholder ?use ?block ?tuple ?sigmaAnd ?sigmaOr ?collOf ?context ?getVar ?unary
    ?register ?record ?arith ?compare ?and ?or ?orElse ?atLeast ?ifThenElse ?slice ?byIndex
    ?byIndexOr ?loop ?fold ?select ?dhTuple ?deserialize ?defsNil ?defsCons ?propsNil ?propsCons
    ?allNil ?allCons).1 e sc
  all_goals intros; simp only [Expr.evalWith, Expr.evalPropositions, Expr.evalAll, Expr.evalDefs]
  case const h => exact metered_enter _ (h _ (opcode_mem _)) fun _ => .pure _
  case placeholder h | use h =>
    exact metered_enter _ (h _ (opcode_mem _)) fun sc => by split <;> constructor
  case block hds he h =>
    obtain ⟨hop, h⟩ := List.forall_mem_cons.1 h
    obtain ⟨hd, hbody⟩ := List.forall_mem_append.1 h
    -- the opcodes of the node are its own, those of the definitions and those of what they are for
    exact metered_enter _ hop fun sc => .bind (hds _ hd) fun _ => he _ hbody
  case tuple hes h =>
    obtain ⟨hop, h⟩ := List.forall_mem_cons.1 h
    exact metered_enter _ hop fun sc => .check (.malformed _) (.bind (hes _ h) fun _ => .pure _)
  case sigmaAnd hes h | sigmaOr hes h =>
    obtain ⟨hop, h⟩ := List.forall_mem_cons.1 h
    exact metered_enter _ hop fun sc => .check (.malformed _) (.bind (hes _ h) fun _ => .pure _)
  case collOf hes h =>
    obtain ⟨hop, h⟩ := List.forall_mem_cons.1 h
    exact metered_enter _ hop fun sc => .bind (.chargeItems _) fun _ => .bind (hes _ h) fun _ =>
      (finds_collectItems ..).metered
  case context f _ h => exact metered_enter _ (h _ (opcode_mem _)) fun sc => f.metered_read _
  case getVar h => exact metered_enter _ (h _ (opcode_mem _)) fun sc => .lift _
  case unary op _ _ he h =>
    obtain ⟨hop, h⟩ := List.forall_mem_cons.1 h
    exact metered_enter _ hop fun sc => .bind (he _ h) fun v => op.metered_apply v
  case register he h =>
    obtain ⟨hop, h⟩ := List.forall_mem_cons.1 h
    exact metered_enter _ hop fun sc => .bind (he _ h) fun v => .bind v.finds_asBox.metered fun _ =>
      .lift _
  case record he h =>
    obtain ⟨hop, h⟩ := List.forall_mem_cons.1 h
    exact metered_enter _ hop fun sc => .bind (he _ h) fun _ => .lift _
  case arith ha hb h | compare ha hb h =>
    obtain ⟨hop, h⟩ := List.forall_mem_cons.1 h
    obtain ⟨h, h'⟩ := List.forall_mem_append.1 h
    exact metered_enter _ hop fun sc => .bind (ha _ h) fun _ => .bind (hb _ h') fun _ => .lift _
  case and ha hb h =>
    -- run or not, the right side enters only nodes that are in it
    obtain ⟨hop, h⟩ := List.forall_mem_cons.1 h
    obtain ⟨h, h'⟩ := List.forall_mem_append.1 h
    exact metered_enter _ hop fun sc => .bind (ha _ h) fun v =>
      .bind v.finds_asBool.metered fun _ =>
      .ite (.bind (hb _ h') fun w => .bind w.finds_asBool.metered fun _ => .pure _) (.pure _)
  case or ha hb h =>
    obtain ⟨hop, h⟩ := List.forall_mem_cons.1 h
    obtain ⟨h, h'⟩ := List.forall_mem_append.1 h
    exact metered_enter _ hop fun sc => .bind (ha _ h) fun v =>
      .bind v.finds_asBool.metered fun _ =>
      .ite (.pure _) (.bind (hb _ h') fun w => .bind w.finds_asBool.metered fun _ => .pure _)
  case orElse ha hb h =>
    obtain ⟨hop, h⟩ := List.forall_mem_cons.1 h
    obtain ⟨h, h'⟩ := List.forall_mem_append.1 h
    exact metered_enter _ hop fun sc => .bind (ha _ h) fun v =>
      .bind v.finds_asOption.metered fun o => by
      split
      · exact .pure _
      · exact hb _ h'
  case atLeast ha hb h =>
    obtain ⟨hop, h⟩ := List.forall_mem_cons.1 h
    obtain ⟨h, h'⟩ := List.forall_mem_append.1 h
    exact metered_enter _ hop fun sc => .bind (ha _ h) fun v => .bind v.finds_asInt.metered fun k =>
      .bind (hb _ h') fun w => .bind w.finds_asColl.metered fun c => metered_atLeastOf k c
  case ifThenElse ha hb hc h =>
    obtain ⟨hop, h⟩ := List.forall_mem_cons.1 h
    obtain ⟨h, h''⟩ := List.forall_mem_append.1 h
    obtain ⟨h, h'⟩ := List.forall_mem_append.1 h
    exact metered_enter _ hop fun sc => .bind (ha _ h) fun v =>
      .bind v.finds_asBool.metered fun _ =>
      .ite (hb _ h') (hc _ h'')
  case slice ha hb hc h =>
    obtain ⟨hop, h⟩ := List.forall_mem_cons.1 h
    obtain ⟨h, h''⟩ := List.forall_mem_append.1 h
    obtain ⟨h, h'⟩ := List.forall_mem_append.1 h
    exact metered_enter _ hop fun sc => .bind (ha _ h) fun v =>
      .bind v.finds_asColl.metered fun c =>
      .bind (hb _ h') fun v => .bind v.finds_asInt.metered fun l =>
      .bind (hc _ h'') fun v => .bind v.finds_asInt.metered fun u => metered_sliceColl c l u
  case byIndex ha hb h =>
    obtain ⟨hop, h⟩ := List.forall_mem_cons.1 h
    obtain ⟨h, h'⟩ := List.forall_mem_append.1 h
    exact metered_enter _ hop fun sc => .bind (ha _ h) fun v =>
      .bind v.finds_asColl.metered fun c =>
      .bind (hb _ h') fun v => .bind v.finds_asInt.metered fun i => by split <;> constructor
  case byIndexOr ha hb hd h =>
    obtain ⟨hop, h⟩ := List.forall_mem_cons.1 h
    obtain ⟨h, h''⟩ := List.forall_mem_append.1 h
    obtain ⟨h, h'⟩ := List.forall_mem_append.1 h
    exact metered_enter _ hop fun sc => .bind (ha _ h) fun v =>
      .bind v.finds_asColl.metered fun c =>
      .bind (hb _ h') fun v => .bind v.finds_asInt.metered fun i => by
        split
        · exact .pure _
        · exact hd _ h''
  case loop op _ _ _ _ ha hbody h =>
    -- the body enters the same nodes however often it is run, and in whichever scope
    obtain ⟨hop, h⟩ := List.forall_mem_cons.1 h
    obtain ⟨h, h'⟩ := List.forall_mem_append.1 h
    exact metered_enter _ hop fun sc => .bind (ha _ h) fun v =>
      .bind v.finds_asColl.metered fun c =>
      op.metered_run (fun sc => hbody sc h') sc c
  case fold ha hzero hbody h =>
    obtain ⟨hop, h⟩ := List.forall_mem_cons.1 h
    obtain ⟨h, h''⟩ := List.forall_mem_append.1 h
    obtain ⟨h, h'⟩ := List.forall_mem_append.1 h
    exact metered_enter _ hop fun sc => .bind (ha _ h) fun v =>
      .bind v.finds_asColl.metered fun c =>
      .bind (hzero _ h') fun acc => .bind (.chargeItems _) fun _ =>
      metered_foldItems (metered_applyFunction (fun sc => hbody sc h'') sc) ..
  case select he h =>
    obtain ⟨hop, h⟩ := List.forall_mem_cons.1 h
    exact metered_enter _ hop fun sc => .bind (he _ h) fun v => (finds_selectItem v _).metered
  case dhTuple hg hh hu hv h =>
    -- four subtrees in order, each followed by the reading of its value
    obtain ⟨hop, h⟩ := List.forall_mem_cons.1 h
    obtain ⟨h, h₄⟩ := List.forall_mem_append.1 h
    obtain ⟨h, h₃⟩ := List.forall_mem_append.1 h
    obtain ⟨h₁, h₂⟩ := List.forall_mem_append.1 h
    exact metered_enter _ hop fun sc =>
      .bind (hg _ h₁) fun v => .bind v.finds_asPoint.metered fun _ =>
      .bind (hh _ h₂) fun v => .bind v.finds_asPoint.metered fun _ =>
      .bind (hu _ h₃) fun v => .bind v.finds_asPoint.metered fun _ =>
      .bind (hv _ h₄) fun v => .bind v.finds_asPoint.metered fun _ => .pure _
  case deserialize h => 
    -- the nodes of a script are not among those of the expression
    exact metered_enter _ (h _ (opcode_mem _)) fun sc => hscript ..
  case defsNil | propsNil | allNil => exact .pure _
  case defsCons he hds h =>
    obtain ⟨h, h'⟩ := List.forall_mem_append.1 h
    exact .bind (he h) fun v => hds v h'
  case propsCons he hes h =>
    obtain ⟨h, h'⟩ := List.forall_mem_append.1 h
    exact .bind (he h) fun v => .bind v.finds_asProposition.metered fun _ => .bind (hes h') fun _ =>
      .pure _
  case allCons he hes h =>
    obtain ⟨h, h'⟩ := List.forall_mem_append.1 h
    exact .bind (he h) fun _ => .bind (hes h') fun _ => .pure _

/-- A script cannot read further scripts: it notes the operations of its own nodes only. -/
theorem Expr.metered_evalNested {e : Expr} (h : ∀ op ∈ e.opcodes, A op) (sc : Scope) :
    Metered A (e.evalNested sc) :=
  Expr.metered_evalWith (fun _ _ _ => .malformed _) e sc h

theorem metered_runScript {sc : Scope}
    (hdecoded : ∀ b e, decodeScript sc.version b = .ok e → ∀ op ∈ e.opcodes, A op) (id : UInt8)
    (t : ValueType) : Metered A (runScript sc id t) :=
  .bind (metered_scriptOctets ..) fun b => .bind (.chargeUnits ..) fun _ => .liftThen fun e he =>
    .bind (Expr.metered_evalNested (hdecoded b e he) _) fun _ => .check (.malformed _) (.pure _)

end Covenant

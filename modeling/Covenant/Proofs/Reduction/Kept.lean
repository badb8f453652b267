/-
  KEPT — what is true of all atoms at hand is true of the proposition that comes out.

  An evaluation starts from the constants of its condition, the registers of the boxes it sees, the
  variables of its input, the headers of the chain, and scripts read from variables.  It computes
  numbers, reads keys out of headers, and puts propositions together; every other atom of a value
  it ever holds was there before.

  1. **`Yields x Q`** — whatever `x` returns satisfies `Q`; what it spends does not matter.
  2. **`Atom.Kept P`** — the property survives each of the ways to make an atom.
  3. **`Expr.yields_evalWith`** — then every value that an expression yields has it, in a scope
     whose values all have it; one case for each node.
  4. **`yields_resultOf`** — so does the proposition that a condition's value stands for, and it is
     no deeper than `maxDepth`.
-/
import Covenant.Proofs.Reduction.Metered
import Covenant.Proofs.Reduction.Readings
import Covenant.Proofs.Script.Atoms

namespace Covenant

/-! ## What a computation returns -/

/-- Whatever the computation returns satisfies `Q`. -/
def Yields {α : Type} (x : EvalM α) (Q : α → Prop) : Prop :=
  ∀ m a m', x.run m = (.ok a, m') → Q a

namespace Yields

variable {α β : Type} {Q : α → Prop} {R : β → Prop}

theorem pure {a : α} (h : Q a) : Yields (Pure.pure a) Q := by
  intro m b m' hrun
  cases hrun
  exact h

theorem fail (e : ReductionError) : Yields (throw e : EvalM α) Q := by
  intro m b m' hrun
  cases hrun

theorem malformed (d : ConditionDefect) : Yields (EvalM.malformed d : EvalM α) Q := fail _

theorem failed (f : RuntimeFailure) : Yields (EvalM.failed f : EvalM α) Q := fail _

/-- Nothing is asked of what is returned. -/
theorem any (x : EvalM α) : Yields x fun _ => True := fun _ _ _ _ => trivial

theorem bind {x : EvalM α} {f : α → EvalM β} (hx : Yields x Q)
    (hf : ∀ a, Q a → Yields (f a) R) : Yields (x >>= f) R := by
  intro m b m' hrun
  obtain ⟨a, m₁, hfirst, hrest⟩ := EvalM.run_bind_eq_ok.1 hrun
  exact hf a (hx m a m₁ hfirst) m₁ b m' hrest

/-- A step of which only the continuation matters. -/
theorem andThen {x : EvalM α} {f : α → EvalM β} (hf : ∀ a, Yields (f a) R) :
    Yields (x >>= f) R :=
  bind (any x) fun a _ => hf a

theorem lift {r : Except ReductionError α} (h : ∀ a, r = .ok a → Q a) :
    Yields (EvalM.lift r) Q := by
  cases r with
  | ok a => exact pure (h a rfl)
  | error e => exact fail e

/-- A check in front of a computation, which knows its outcome. -/
theorem check {c : Prop} [Decidable c] {d : ConditionDefect} {y : EvalM α}
    (hy : ¬c → Yields y Q) :
    Yields (if c then EvalM.malformed d >>= fun _ : PUnit => y else y) Q := by
  split
  · exact bind (malformed d) fun _ (h : False) => h.elim
  · exact hy ‹_›

theorem ite {c : Prop} [Decidable c] {x y : EvalM α} (hx : Yields x Q) (hy : Yields y Q) :
    Yields (if c then x else y) Q := by
  split
  · exact hx
  · exact hy

end Yields

/-- What is found has what it was looked for. -/
theorem EvalM.Finds.yields {α : Type} {Q R : α → Prop} {x : EvalM α} (h : EvalM.Finds Q x)
    (hq : ∀ a, Q a → R a) : Yields x R := by
  cases h with
  | found h => exact .pure (hq _ ((h _).2 rfl))
  | missing => exact .malformed _

/-! ## Properties that evaluation keeps -/

/-- The property survives each of the ways to make an atom. -/
structure Atom.Kept (P : Atom → Prop) : Prop where
  bool : ∀ b, P (.bool b)
  byte : ∀ x, P (.byte x)
  short : ∀ x, P (.short x)
  int : ∀ x, P (.int x)
  long : ∀ x, P (.long x)
  bigInt : ∀ x, P (.bigInt x)
  stateTree : ∀ h, P (.header h) → P (.stateTree h.stateRoot)
  minerKey : ∀ h, P (.header h) → P (.groupElement h.minerKey)
  powOnetimeKey : ∀ h, P (.header h) → P (.groupElement h.powOnetimeKey)
  nextMinerKey : ∀ h, P (.preHeader h) → P (.groupElement h.minerKey)
  settled : ∀ b, P (.sigmaProp (.trivial b))
  dlog : ∀ y, P (.groupElement y) → P (.sigmaProp (.dlog y))
  dhTuple : ∀ g h u v, P (.groupElement g) → P (.groupElement h) → P (.groupElement u) →
    P (.groupElement v) → P (.sigmaProp (.dhTuple g h u v))
  allOf : ∀ ps, ps.length ≤ maxChildren → (∀ p ∈ ps, P (.sigmaProp p)) → P (.sigmaProp (.allOf ps))
  anyOf : ∀ ps, ps.length ≤ maxChildren → (∀ p ∈ ps, P (.sigmaProp p)) → P (.sigmaProp (.anyOf ps))
  atLeast : ∀ k ps, ps.length ≤ maxChildren → (∀ p ∈ ps, P (.sigmaProp p)) →
    P (.sigmaProp (.atLeast k ps))

/-- Everything that a condition can see has the property. -/
structure Context.Has (P : Atom → Prop) (c : Context) : Prop where
  inputs : ∀ b ∈ c.tx.inputs, (Value.box b).Has P
  dataInputs : ∀ b ∈ c.tx.dataInputs, (Value.box b).Has P
  outputs : ∀ b ∈ c.tx.outputs, (Value.box b).Has P
  headers : ∀ h ∈ c.tx.state.headers, P (.header h)
  preHeader : P (.preHeader c.tx.state.preHeader)
  extension : ∀ e ∈ c.extension.entries, e.2.Has P

/-- Everything that an expression can refer to has the property. -/
structure Scope.Has (P : Atom → Prop) (sc : Scope) : Prop where
  context : sc.context.Has P
  constants : ∀ v ∈ sc.constants, v.Has P
  bindings : ∀ b ∈ sc.bindings, b.2.Has P

variable {P : Atom → Prop}

theorem Scope.Has.deeper {sc : Scope} (h : sc.Has P) : sc.deeper.Has P :=
  ⟨h.context, h.constants, h.bindings⟩

theorem Scope.Has.bind {sc : Scope} (h : sc.Has P) (id : UInt32) {v : Value} (hv : v.Has P) :
    (sc.bind id v).Has P :=
  ⟨h.context, h.constants, List.forall_mem_cons.2 ⟨hv, h.bindings⟩⟩

/-- Only the context is visible in the scope of a script. -/
theorem Context.Has.isolated {sc : Scope} (h : sc.context.Has P) : sc.isolated.Has P :=
  ⟨h, by simp [Scope.isolated], by simp [Scope.isolated]⟩

theorem mem_of_lookup {α β : Type} [BEq α] [LawfulBEq α] {es : List (α × β)} {a : α} {b : β}
    (h : es.lookup a = some b) : (a, b) ∈ es := by
  obtain ⟨before, after, rfl, -⟩ := List.lookup_eq_some_iff.1 h
  simp

theorem Context.Has.variable {c : Context} (h : c.Has P) {id : UInt8} :
    ∀ v ∈ c.extension.get? id, v.Has P :=
  fun _ hv => h.extension _ (mem_of_lookup hv)

/-! ## Values of the right kind -/

namespace Value

variable {v : Value} (hv : v.Has P)
include hv

theorem yields_asPoint : Yields v.asPoint fun y => P (.groupElement y) :=
  v.finds_asPoint.yields fun y h => has_atom.1 (h ▸ hv : (groupElement y).Has P)

theorem yields_asBox : Yields v.asBox fun b => (box b).Has P :=
  v.finds_asBox.yields fun _ h => h ▸ hv

theorem yields_asColl (hP : Atom.Kept P) : Yields v.asColl (Coll.Has P) :=
  v.finds_asColl.yields fun _ h => Coll.has_of_toValue hP.byte (h ▸ hv)

theorem yields_asOption : Yields v.asOption fun o => ∀ w ∈ o, w.Has P :=
  v.finds_asOption.yields fun _ ⟨_, h⟩ => has_option.1 (h ▸ hv)

theorem yields_asProposition (hP : Atom.Kept P) :
    Yields v.asProposition fun p => P (.sigmaProp p) := by
  refine v.finds_asProposition.yields fun p h => ?_
  rcases h with h | ⟨b, -, rfl⟩
  · exact has_atom.1 (h ▸ hv : (sigmaProp p).Has P)
  · exact hP.settled b

end Value

/-! ## Numbers -/

section Numbers

variable (hP : Atom.Kept P) {v : Value}
include hP

/-- What is computed holds nothing that was not kept. -/
theorem Value.Computed.has (h : v.Computed) : v.Has P := by
  cases h with
  | bool b => exact has_atom.2 (hP.bool b)
  | byte x => exact has_atom.2 (hP.byte x)
  | short x => exact has_atom.2 (hP.short x)
  | int x => exact has_atom.2 (hP.int x)
  | long x => exact has_atom.2 (hP.long x)
  | bigInt x => exact has_atom.2 (hP.bigInt x)

/-! ## Fields -/

/-- What is read of a record was in it, or holds nothing that was not kept. -/
theorem RecordField.Reading.has {x : Value} (hx : x.Has P) (h : RecordField.Reading x v) :
    v.Has P := by
  cases h with
  | computed h => exact h.has hP
  | octets b => exact Value.has_bytes
  | stateRoot h => exact Value.has_atom.2 (hP.stateTree h (Value.has_atom.1 hx))
  | minerKey h => exact Value.has_atom.2 (hP.minerKey h (Value.has_atom.1 hx))
  | powOnetimeKey h => exact Value.has_atom.2 (hP.powOnetimeKey h (Value.has_atom.1 hx))
  | nextMinerKey h => exact Value.has_atom.2 (hP.nextMinerKey h (Value.has_atom.1 hx))
  | absent => exact Value.has_option.2 (by simp)
  | present n => exact Value.has_option.2 (by simpa using Value.has_atom.2 (hP.int n))

theorem has_tokens {ts : List Token} {vs : List Value} (h : ts.mapM Token.toValue = .ok vs) :
    ∀ v ∈ vs, v.Has P := by
  intro v hv
  obtain ⟨t, -, ht⟩ := (Outcome.spec_of_mapM h).2 v hv
  obtain ⟨n, rfl⟩ := t.exists_of_toValue ht
  exact Value.has_pair.2 ⟨Value.has_bytes, Value.has_atom.2 (hP.long n)⟩

end Numbers

theorem has_readTyped {defect : ConditionDefect} {t : ValueType} {o : Option Value} {v : Value}
    (ho : ∀ w ∈ o, w.Has P) (hv : readTyped defect t o = .ok v) : v.Has P := by
  obtain ⟨-, rfl⟩ := readTyped_eq_ok.1 hv
  exact Value.has_option.2 ho

/-! ## Operations on values -/

theorem yields_boxColl {bs : List Box} (h : ∀ b ∈ bs, (Value.box b).Has P) :
    Yields (boxColl bs) (Value.Has P) := by
  refine .andThen fun _ => .pure (Value.has_seq.2 fun v hv => ?_)
  obtain ⟨b, hb, rfl⟩ := List.mem_map.1 hv
  exact h b hb

theorem ContextField.yields_read (hP : Atom.Kept P) {c : Context} (hc : c.Has P)
    (f : ContextField) : Yields (f.read c) (Value.Has P) := by
  cases f with
  | height => exact .lift fun v hv => (computed_intOf hv).has hP
  | selfBox =>
    simp only [ContextField.read]
    split
    · rename_i b hb
      exact .pure (hc.inputs b (List.mem_of_getElem? hb))
    · exact .fail _
  | inputs => exact yields_boxColl hc.inputs
  | outputs => exact yields_boxColl hc.outputs
  | dataInputs => exact yields_boxColl hc.dataInputs
  | headers =>
    -- each header is an atom of the context
    refine .andThen fun _ => .pure (Value.has_seq.2 fun v hv => ?_)
    obtain ⟨h, hh, rfl⟩ := List.mem_map.1 hv
    exact Value.has_atom.2 (hc.headers h hh)
  | preHeader => exact .pure (Value.has_atom.2 hc.preHeader)
  | minerKey | stateDigest => exact .pure Value.has_bytes

theorem yields_hashBytes (hash : Bytes → Octets 32) (v : Value) :
    Yields (hashBytes hash v) (Value.Has P) :=
  .andThen fun _ => .andThen fun _ => .pure Value.has_bytes

theorem yields_selectItem {v : Value} (hv : v.Has P) (number : UInt8) :
    Yields (selectItem v number) (Value.Has P) := by
  refine (finds_selectItem v number).yields fun w ⟨vs, htuple, i, _, hw⟩ => ?_
  subst htuple
  exact Value.has_tuple.1 hv w (List.mem_of_getElem? hw)

theorem yields_sliceColl {c : Coll} (hc : c.Has P) (lower upper : Int32) :
    Yields (sliceColl c lower upper) (Value.Has P) :=
  .andThen fun _ => .pure (Coll.has_slice hc _ _)

theorem has_itemAt? {c : Coll} (hc : c.Has P) {i : Int32} : ∀ v ∈ itemAt? c i, v.Has P := by
  intro v hv
  unfold itemAt? at hv
  split at hv
  · cases hv
  · exact Coll.has_get? hc v hv

theorem yields_collectItems {t : ValueType} {vs : List Value} (h : ∀ v ∈ vs, v.Has P) :
    Yields (collectItems t vs) (Value.Has P) := by
  refine (finds_collectItems t vs).yields fun w ⟨_, hw⟩ => ?_
  subst hw
  exact Coll.has_ofList h

/-- Going through a list yields what each step yields. -/
theorem Yields.mapM {α β : Type} {f : α → EvalM β} {Q : β → Prop} {as : List α}
    (hf : ∀ a ∈ as, Yields (f a) Q) : Yields (as.mapM f) fun bs => ∀ b ∈ bs, Q b := by
  induction as with
  | nil => exact .pure (by simp)
  | cons a as ih =>
    obtain ⟨hfirst, hrest⟩ := List.forall_mem_cons.1 hf
    rw [List.mapM_cons]
    exact .bind hfirst fun b hb => .bind (ih hrest) fun bs hbs =>
      .pure (List.forall_mem_cons.2 ⟨hb, hbs⟩)

theorem yields_propositionItems {c : Coll} (hc : c.Has P) :
    Yields (propositionItems c) fun ps => ∀ p ∈ ps, P (.sigmaProp p) := by
  refine (finds_propositionItems c).yields fun ps hps p hp => ?_
  subst hps
  exact Value.has_atom.1 (hc _ (List.mem_map_of_mem hp))

theorem yields_atLeastOf (hP : Atom.Kept P) (k : Int32) {c : Coll} (hc : c.Has P) :
    Yields (atLeastOf k c) (Value.Has P) :=
  .bind (yields_propositionItems hc) fun ps hps => .check fun hlen => .andThen fun _ =>
    .pure (Value.has_atom.2 (hP.atLeast _ ps (Nat.not_lt.1 hlen) hps))

/-! ## Functions applied to items -/

section Functions

variable {sig : Signature} {body : Scope → EvalM Value}
  (hbody : ∀ sc, sc.Has P → Yields (body sc) (Value.Has P)) {sc : Scope} (hsc : sc.Has P)
include hbody hsc

theorem yields_applyFunction {arg : Value} (harg : arg.Has P) :
    Yields (applyFunction sig body sc arg) (Value.Has P) := by
  unfold applyFunction
  split
  · exact .check fun _ => .andThen fun _ => .bind (hbody _ (hsc.bind _ harg)) fun v hv =>
      .check fun _ => .pure hv
  · exact .malformed _

theorem yields_mapItems {vs : List Value} (h : ∀ v ∈ vs, v.Has P) :
    Yields (mapItems (applyFunction sig body sc) vs) fun ws => ∀ w ∈ ws, w.Has P := by
  induction vs with
  | nil => exact .pure (by simp)
  | cons v vs ih =>
    obtain ⟨hv, hvs⟩ := List.forall_mem_cons.1 h
    exact .bind (yields_applyFunction hbody hsc hv) fun w hw => .bind (ih hvs) fun ws hws =>
      .pure (List.forall_mem_cons.2 ⟨hw, hws⟩)

theorem yields_foldItems {acc : Value} (hacc : acc.Has P) {vs : List Value}
    (h : ∀ v ∈ vs, v.Has P) :
    Yields (foldItems (applyFunction sig body sc) acc vs) (Value.Has P) := by
  induction vs generalizing acc with
  | nil => exact .pure hacc
  | cons v vs ih =>
    obtain ⟨hv, hvs⟩ := List.forall_mem_cons.1 h
    exact .bind (yields_applyFunction hbody hsc (Value.has_pair.2 ⟨hacc, hv⟩)) fun acc hacc =>
      ih hacc hvs

end Functions

/-- What a predicate accepts was there before. -/
theorem yields_filterItems {p : Value → EvalM Bool} {vs : List Value} (h : ∀ v ∈ vs, v.Has P) :
    Yields (filterItems p vs) fun ws => ∀ w ∈ ws, w.Has P := by
  induction vs with
  | nil => exact .pure (by simp)
  | cons v vs ih =>
    obtain ⟨hv, hvs⟩ := List.forall_mem_cons.1 h
    refine .andThen fun b => .bind (ih hvs) fun ws hws => .pure ?_
    split
    · exact List.forall_mem_cons.2 ⟨hv, hws⟩
    · exact hws

theorem LoopOp.yields_run (hP : Atom.Kept P) (op : LoopOp) {sig : Signature}
    {body : Scope → EvalM Value} (hbody : ∀ sc, sc.Has P → Yields (body sc) (Value.Has P))
    {sc : Scope} (hsc : sc.Has P) {c : Coll} (hc : c.Has P) :
    Yields (op.run sig body sc c) (Value.Has P) := by
  cases op with
  | map =>
    exact .andThen fun _ => .bind (yields_mapItems hbody hsc hc) fun ws hws =>
      yields_collectItems hws
  | filter =>
    exact .andThen fun _ => .bind (yields_filterItems hc) fun ws hws =>
      .pure (Coll.has_ofList hws)
  | «exists» | forAll => exact .andThen fun _ => .pure (Value.has_atom.2 (hP.bool _))

/-! ## The evaluator -/

/-- A node yields what it runs yields. -/
theorem Yields.enter {sc : Scope} {op : Opcode} {node : Scope → EvalM Value} {Q : Value → Prop}
    (h : Yields (node sc.deeper) Q) : Yields (Covenant.enter sc op node) Q :=
  .check fun _ => .andThen fun _ => .andThen fun _ => .bind h fun _ hv =>
    .andThen fun _ => .pure hv

theorem yields_enter {sc : Scope} (hsc : sc.Has P) {op : Opcode} {node : Scope → EvalM Value}
    (hnode : ∀ sc, sc.Has P → Yields (node sc) (Value.Has P)) :
    Yields (enter sc op node) (Value.Has P) :=
  .enter (hnode _ hsc.deeper)

variable [Suite]

theorem Box.yields_read (hP : Atom.Kept P) (b : Box) (f : BoxField) :
    Yields (b.read f) (Value.Has P) := by
  cases f with
  | value => exact .lift fun v hv => (computed_longOf hv).has hP
  | creationHeight => exact .lift fun v hv => (computed_intOf hv).has hP
  | scriptBytes | id => exact .pure Value.has_bytes
  | tokens =>
    exact .andThen fun _ => .bind (.lift fun vs hvs => has_tokens hP hvs) fun vs hvs =>
      .pure (Value.has_seq.2 hvs)

theorem UnaryOp.yields_apply (hP : Atom.Kept P) {v : Value} (hv : v.Has P) (op : UnaryOp) :
    Yields (op.apply v) (Value.Has P) := by
  cases op with
  | extract f => exact .andThen fun b => b.yields_read hP f
  | negate => exact .lift fun w hw => (computed_negate hw).has hP
  | toBigInt => exact .lift fun w hw => (computed_toBigInt hw).has hP
  | not | allOf | anyOf | optionIsDefined =>
    exact .andThen fun _ => .pure (Value.has_atom.2 (hP.bool _))
  | boolToSigma => exact .andThen fun _ => .pure (Value.has_atom.2 (hP.settled _))
  | sizeOf => exact .andThen fun _ => .lift fun w hw => (computed_intOf hw).has hP
  | optionGet =>
    refine .bind (Value.yields_asOption hv) fun o ho => ?_
    split
    · exact .pure (ho _ rfl)
    · exact .failed _
  | sha256 | blake3 => exact yields_hashBytes _ v
  | proveDlog =>
    exact .bind (Value.yields_asPoint hv) fun y hy => .pure (Value.has_atom.2 (hP.dlog y hy))

/-- What scripts that variables hold must yield. -/
def KeepsScripts (P : Atom → Prop) (script : Scope → UInt8 → ValueType → EvalM Value) : Prop :=
  ∀ sc i t, sc.Has P → Yields (script sc i t) (Value.Has P)

/-- **Every expression keeps the property**, given that scripts read from variables do. -/
theorem Expr.yields_evalWith (hP : Atom.Kept P)
    {script : Scope → UInt8 → ValueType → EvalM Value} (hscript : KeepsScripts P script)
    (e : Expr) (sc : Scope) : e.Has P → sc.Has P → Yields (e.evalWith script sc) (Value.Has P) := by
  -- one case for each node, for each of the three kinds of lists, and for their ends
  refine (Expr.evalWith.mutual_induct
    (motive_1 := fun e sc => (∀ a ∈ e.atoms, P a) → sc.Has P →
      Yields (e.evalWith script sc) (Value.Has P))
    (motive_2 := fun es sc => (∀ a ∈ Expr.atomsAll es, P a) → sc.Has P →
      Yields (Expr.evalPropositions script es sc) fun ps =>
        ps.length = es.length ∧ ∀ p ∈ ps, P (.sigmaProp p))
    (motive_3 := fun es sc => (∀ a ∈ Expr.atomsAll es, P a) → sc.Has P →
      Yields (Expr.evalAll script es sc) fun vs => ∀ v ∈ vs, v.Has P)
    (motive_4 := fun ds sc => (∀ a ∈ Expr.atomsDefs ds, P a) → sc.Has P →
      Yields (Expr.evalDefs script ds sc) (Scope.Has P))
    ?const ?placeholder ?use ?block ?tuple ?sigmaAnd ?sigmaOr ?collOf ?context ?getVar ?unary
    ?register ?record ?arith ?compare ?and ?or ?orElse ?atLeast ?ifThenElse ?slice ?byIndex
    ?byIndexOr ?loop ?fold ?select ?dhTuple ?deserialize ?defsNil ?defsCons ?propsNil ?propsCons
    ?allNil ?allCons).1 e sc
  all_goals intros; simp only [Expr.evalWith, Expr.evalPropositions, Expr.evalAll, Expr.evalDefs]
  case const h hsc => exact yields_enter hsc fun _ _ => .pure h
  case placeholder _ hsc =>
    refine yields_enter hsc fun sc hsc => ?_
    split
    · exact .pure (hsc.constants _ (List.mem_of_getElem? ‹_›))
    · exact .malformed _
  case use _ hsc =>
    refine yields_enter hsc fun sc hsc => ?_
    split
    · exact .pure (hsc.bindings _ (mem_of_lookup ‹_›))
    · exact .malformed _
  case block hds he h hsc =>
    obtain ⟨hd, hbody⟩ := List.forall_mem_append.1 h
    exact yields_enter hsc fun _ hsc => .bind (hds _ hd hsc) fun _ hsc => he _ hbody hsc
  case tuple hes h hsc =>
    exact yields_enter hsc fun _ hsc => .check fun _ => .bind (hes _ h hsc) fun _ hvs =>
      .pure (Value.has_tuple.2 hvs)
  case sigmaAnd hes h hsc =>
    exact yields_enter hsc fun _ hsc => .check fun hlen => .bind (hes _ h hsc) fun ps hps =>
      .pure (Value.has_atom.2 (hP.allOf ps (hps.1 ▸ Nat.not_lt.1 hlen) hps.2))
  case sigmaOr hes h hsc =>
    exact yields_enter hsc fun _ hsc => .check fun hlen => .bind (hes _ h hsc) fun ps hps =>
      .pure (Value.has_atom.2 (hP.anyOf ps (hps.1 ▸ Nat.not_lt.1 hlen) hps.2))
  case collOf hes h hsc =>
    exact yields_enter hsc fun _ hsc => .andThen fun _ => .bind (hes _ h hsc) fun _ hvs =>
      yields_collectItems hvs
  case context f _ _ hsc => exact yields_enter hsc fun _ hsc => f.yields_read hP hsc.context
  case getVar hsc =>
    exact yields_enter hsc fun _ hsc => .lift fun _ hv => has_readTyped hsc.context.variable hv
  case unary op _ _ he h hsc =>
    exact yields_enter hsc fun _ hsc => .bind (he _ h hsc) fun _ hv => op.yields_apply hP hv
  case register he h hsc =>
    exact yields_enter hsc fun _ hsc => .bind (he _ h hsc) fun _ hv =>
      .bind (Value.yields_asBox hv) fun _ hb => .lift fun _ hw =>
        has_readTyped (Box.has_register hb) hw
  case record he h hsc =>
    exact yields_enter hsc fun _ hsc => .bind (he _ h hsc) fun _ hv =>
      .lift fun _ hw => (RecordField.reading_of_read hw).has hP hv
  case arith ha hb h hsc =>
    exact yields_enter hsc fun _ hsc => .andThen fun _ => .andThen fun _ =>
      .lift fun _ hv => (computed_arith hv).has hP
  case compare ha hb h hsc =>
    exact yields_enter hsc fun _ hsc => .andThen fun _ => .andThen fun _ =>
      .lift fun _ hv => (computed_compare hv).has hP
  case and ha hb h hsc =>
    exact yields_enter hsc fun _ hsc => .andThen fun _ => .andThen fun _ =>
      .ite (.andThen fun _ => .andThen fun _ => .pure (Value.has_atom.2 (hP.bool _)))
        (.pure (Value.has_atom.2 (hP.bool _)))
  case or ha hb h hsc =>
    exact yields_enter hsc fun _ hsc => .andThen fun _ => .andThen fun _ =>
      .ite (.pure (Value.has_atom.2 (hP.bool _)))
        (.andThen fun _ => .andThen fun _ => .pure (Value.has_atom.2 (hP.bool _)))
  case orElse ha hb h hsc =>
    obtain ⟨h, h'⟩ := List.forall_mem_append.1 h
    refine yields_enter hsc fun sc hsc => .bind (ha _ h hsc) fun _ hv =>
      .bind (Value.yields_asOption hv) fun o ho => ?_
    split
    · exact .pure (ho _ rfl)
    · exact hb _ h' hsc
  case atLeast ha hb h hsc =>
    obtain ⟨-, h'⟩ := List.forall_mem_append.1 h
    exact yields_enter hsc fun _ hsc => .andThen fun _ => .andThen fun k =>
      .bind (hb _ h' hsc) fun _ hv => .bind (Value.yields_asColl hv hP) fun _ hc =>
        yields_atLeastOf hP k hc
  case ifThenElse ha hb hc h hsc =>
    obtain ⟨h, h''⟩ := List.forall_mem_append.1 h
    obtain ⟨-, h'⟩ := List.forall_mem_append.1 h
    exact yields_enter hsc fun _ hsc => .andThen fun _ => .andThen fun _ =>
      .ite (hb _ h' hsc) (hc _ h'' hsc)
  case slice ha hb hc h hsc =>
    obtain ⟨h, -⟩ := List.forall_mem_append.1 h
    obtain ⟨h, -⟩ := List.forall_mem_append.1 h
    exact yields_enter hsc fun _ hsc => .bind (ha _ h hsc) fun _ hv =>
      .bind (Value.yields_asColl hv hP) fun c hc => .andThen fun _ => .andThen fun l =>
      .andThen fun _ => .andThen fun u => yields_sliceColl hc l u
  case byIndex ha hb h hsc =>
    obtain ⟨h, -⟩ := List.forall_mem_append.1 h
    refine yields_enter hsc fun _ hsc => .bind (ha _ h hsc) fun _ hv =>
      .bind (Value.yields_asColl hv hP) fun c hc => .andThen fun _ => .andThen fun i => ?_
    split
    · exact .pure (has_itemAt? hc _ ‹_›)
    · exact .failed _
  case byIndexOr ha hb hd h hsc =>
    obtain ⟨h, h''⟩ := List.forall_mem_append.1 h
    obtain ⟨h, -⟩ := List.forall_mem_append.1 h
    refine yields_enter hsc fun _ hsc => .bind (ha _ h hsc) fun _ hv =>
      .bind (Value.yields_asColl hv hP) fun c hc => .andThen fun _ => .andThen fun i => ?_
    split
    · exact .pure (has_itemAt? hc _ ‹_›)
    · exact hd _ h'' hsc
  case loop op _ _ _ _ ha hbody h hsc =>
    obtain ⟨h, h'⟩ := List.forall_mem_append.1 h
    exact yields_enter hsc fun _ hsc => .bind (ha _ h hsc) fun _ hv =>
      .bind (Value.yields_asColl hv hP) fun _ hc =>
        op.yields_run hP (fun sc hsc => hbody sc h' hsc) hsc hc
  case fold ha hzero hbody h hsc =>
    obtain ⟨h, h''⟩ := List.forall_mem_append.1 h
    obtain ⟨h, h'⟩ := List.forall_mem_append.1 h
    exact yields_enter hsc fun _ hsc => .bind (ha _ h hsc) fun _ hv =>
      .bind (Value.yields_asColl hv hP) fun _ hc => .bind (hzero _ h' hsc) fun _ hacc =>
      .andThen fun _ => yields_foldItems (fun sc hsc => hbody sc h'' hsc) hsc hacc hc
  case select he h hsc =>
    exact yields_enter hsc fun _ hsc => .bind (he _ h hsc) fun _ hv => yields_selectItem hv _
  case dhTuple hg hh hu hv h hsc =>
    obtain ⟨h, h₄⟩ := List.forall_mem_append.1 h
    obtain ⟨h, h₃⟩ := List.forall_mem_append.1 h
    obtain ⟨h₁, h₂⟩ := List.forall_mem_append.1 h
    exact yields_enter hsc fun _ hsc =>
      .bind (hg _ h₁ hsc) fun _ hw => .bind (Value.yields_asPoint hw) fun y₁ hy₁ =>
      .bind (hh _ h₂ hsc) fun _ hw => .bind (Value.yields_asPoint hw) fun y₂ hy₂ =>
      .bind (hu _ h₃ hsc) fun _ hw => .bind (Value.yields_asPoint hw) fun y₃ hy₃ =>
      .bind (hv _ h₄ hsc) fun _ hw => .bind (Value.yields_asPoint hw) fun y₄ hy₄ =>
        .pure (Value.has_atom.2 (hP.dhTuple y₁ y₂ y₃ y₄ hy₁ hy₂ hy₃ hy₄))
  case deserialize _ hsc => exact yields_enter hsc fun _ hsc => hscript _ _ _ hsc
  case defsNil hsc => exact .pure hsc
  case defsCons he hds h hsc =>
    obtain ⟨h, h'⟩ := List.forall_mem_append.1 h
    exact .bind (he h hsc) fun v hv => hds v h' (hsc.bind _ hv)
  case propsNil => exact .pure ⟨rfl, by simp⟩
  case propsCons he hes h hsc =>
    obtain ⟨h, h'⟩ := List.forall_mem_append.1 h
    exact .bind (he h hsc) fun _ hv => .bind (Value.yields_asProposition hv hP) fun p hp =>
      .bind (hes h' hsc) fun ps hps =>
        .pure ⟨congrArg (· + 1) hps.1, List.forall_mem_cons.2 ⟨hp, hps.2⟩⟩
  case allNil => exact .pure (by simp)
  case allCons he hes h hsc =>
    obtain ⟨h, h'⟩ := List.forall_mem_append.1 h
    exact .bind (he h hsc) fun v hv => .bind (hes h' hsc) fun vs hvs =>
      .pure (List.forall_mem_cons.2 ⟨hv, hvs⟩)

omit [Suite] in
theorem yields_resultOf (hP : Atom.Kept P) {v : Value} (hv : v.Has P) :
    Yields (resultOf v) fun p => P (.sigmaProp p) ∧ p.depth ≤ maxDepth := by
  have accounted (p : Proposition) (hp : P (.sigmaProp p)) : Yields (α := Proposition) (do
      if maxDepth < p.depth then EvalM.malformed .propositionTooDeep
      EvalM.charge p.verificationCost
      return p) fun p => P (.sigmaProp p) ∧ p.depth ≤ maxDepth :=
    .check fun hdepth => .andThen fun _ => .pure ⟨hp, Nat.not_lt.1 hdepth⟩
  simp only [resultOf]
  split
  · exact .bind (.pure (hP.settled _)) accounted
  · exact .bind (.pure (Value.has_atom.1 hv)) accounted
  · exact .bind (.malformed _) accounted

end Covenant

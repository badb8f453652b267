/-
  SCRIPTS — which scripts an evaluation can come to run.

  The evaluator is told what to do with scripts that variables hold.  It asks only where its
  expression has a `deserialize` node, and always in the context and at the version in which it
  started: operands are one level deeper, functions and blocks bind variables, and nothing else
  happens to a scope.

  1. **`Expr.nodes`** — an expression and everything inside it.
  2. **`Expr.evalWith_congr`** — two ways to answer that agree where the expression can ask lead to
     the same evaluation; one case for each node.
  3. **`Expr.evalWith_answering`** — so what is true of all answers that the expression can ask for
     may be assumed of every answer.
  4. **Reducing** — a condition asks for the scripts that its nodes name (`Condition.Reads`).  What
     is true of all atoms of the condition, its context and these scripts is true of the
     proposition that comes out (`Condition.has_of_reduce`), and the operations that a reduction
     notes are those of the condition and of scripts at its version (`Condition.metered_run`).
-/
import Covenant.Proofs.Reduction.Kept

namespace Covenant

/-! ## Nodes -/

namespace Expr

mutual

/-- The expression and all expressions inside it, parents before children. -/
def nodes : Expr → List Expr
  | .const v => [.const v]
  | .placeholder i => [.placeholder i]
  | .use i => [.use i]
  | .block ds e => .block ds e :: (nodesDefs ds ++ e.nodes)
  | .variadic op es => .variadic op es :: nodesAll es
  | .collOf t es => .collOf t es :: nodesAll es
  | .context f => [.context f]
  | .getVar i t => [.getVar i t]
  | .unary op e => .unary op e :: e.nodes
  | .register e i t => .register e i t :: e.nodes
  | .record f e => .record f e :: e.nodes
  | .binary op a b => .binary op a b :: (a.nodes ++ b.nodes)
  | .ternary op a b c => .ternary op a b c :: (a.nodes ++ b.nodes ++ c.nodes)
  | .byIndex c i none => .byIndex c i none :: (c.nodes ++ i.nodes)
  | .byIndex c i (some d) => .byIndex c i (some d) :: (c.nodes ++ i.nodes ++ d.nodes)
  | .loop op c s b => .loop op c s b :: (c.nodes ++ b.nodes)
  | .fold c z s b => .fold c z s b :: (c.nodes ++ z.nodes ++ b.nodes)
  | .selectField e i => .selectField e i :: e.nodes
  | .dhTuple g h u v => .dhTuple g h u v :: (g.nodes ++ h.nodes ++ u.nodes ++ v.nodes)
  | .deserialize i t => [.deserialize i t]

/-- The nodes of some expressions. -/
def nodesAll : List Expr → List Expr
  | [] => []
  | e :: es => e.nodes ++ nodesAll es

/-- The nodes of the right-hand sides of some definitions. -/
def nodesDefs : List (UInt32 × Expr) → List Expr
  | [] => []
  | (_, e) :: ds => e.nodes ++ nodesDefs ds

end

end Expr

/-! ## Scopes of one evaluation -/

/-- The scopes are of the same context and version.  So is a scope and one that is deeper or binds
a variable, and this by definition. -/
def Scope.Alike (sc sc' : Scope) : Prop :=
  sc'.context = sc.context ∧ sc'.version = sc.version

theorem Scope.Alike.refl (sc : Scope) : sc.Alike sc := ⟨rfl, rfl⟩

theorem Scope.Alike.trans {sc sc' sc'' : Scope} (h : sc.Alike sc') (h' : sc'.Alike sc'') :
    sc.Alike sc'' :=
  ⟨h'.1.trans h.1, h'.2.trans h.2⟩

variable [Suite] {script script' : Scope → UInt8 → ValueType → EvalM Value}

/-- Definitions bind variables and change nothing else. -/
theorem Expr.yields_evalDefs (ds : List (UInt32 × Expr)) (sc : Scope) :
    Yields (Expr.evalDefs script ds sc) sc.Alike := by
  induction ds generalizing sc with
  | nil => exact .pure (.refl sc)
  | cons d ds ih =>
    obtain ⟨i, e⟩ := d
    exact .andThen fun v => ih (sc.bind i v)

/-! ## Answers that agree -/

/-- The two ways to answer agree in all scopes like `sc`, for the scripts that some nodes name. -/
def AgreeOn (script script' : Scope → UInt8 → ValueType → EvalM Value) (sc : Scope)
    (ns : List Expr) : Prop :=
  ∀ sc' i t, sc.Alike sc' → .deserialize i t ∈ ns → script sc' i t = script' sc' i t

namespace AgreeOn

variable {sc : Scope} {n : Expr} {ns ms : List Expr}

omit [Suite]

theorem tail (h : AgreeOn script script' sc (n :: ns)) : AgreeOn script script' sc ns :=
  fun sc' i t hsc hmem => h sc' i t hsc (List.mem_cons_of_mem n hmem)

theorem append (h : AgreeOn script script' sc (ns ++ ms)) :
    AgreeOn script script' sc ns ∧ AgreeOn script script' sc ms :=
  ⟨fun sc' i t hsc hmem => h sc' i t hsc (List.mem_append_left ms hmem),
    fun sc' i t hsc hmem => h sc' i t hsc (List.mem_append_right ns hmem)⟩

/-- Scopes like a scope that is like `sc` are like `sc`. -/
theorem alike (h : AgreeOn script script' sc ns) {sc' : Scope} (hsc : sc.Alike sc') :
    AgreeOn script script' sc' ns := fun sc'' i t hsc' hmem =>
  h sc'' i t (hsc.trans hsc') hmem

end AgreeOn

section

omit [Suite]

/-- Sequences are the same when their second steps are, on what the first yields. -/
theorem Yields.bind_congr {α β : Type} {x : EvalM α} {f g : α → EvalM β} {Q : α → Prop}
    (hx : Yields x Q) (h : ∀ a, Q a → f a = g a) : x >>= f = x >>= g := by
  funext m
  change (x >>= f).run m = (x >>= g).run m
  rw [EvalM.run_bind, EvalM.run_bind]
  split
  · rename_i a m' hrun
    rw [h a (hx m a m' hrun)]
  · rfl

theorem enter_congr {sc : Scope} {op : Opcode} {node node' : Scope → EvalM Value}
    (h : node sc.deeper = node' sc.deeper) : enter sc op node = enter sc op node' := by
  simp only [enter, h]

theorem applyFunction_congr {sig : Signature} {body body' : Scope → EvalM Value} {sc : Scope}
    (h : ∀ i v, body (sc.bind i v) = body' (sc.bind i v)) :
    applyFunction sig body sc = applyFunction sig body' sc := by
  funext arg
  simp only [applyFunction, h]

theorem LoopOp.run_congr {op : LoopOp} {sig : Signature} {body body' : Scope → EvalM Value}
    {sc : Scope} (h : ∀ i v, body (sc.bind i v) = body' (sc.bind i v)) (c : Coll) :
    op.run sig body sc c = op.run sig body' sc c := by
  have hpredicate : applyPredicate sig body sc = applyPredicate sig body' sc := by
    funext arg
    simp only [applyPredicate, applyFunction_congr h]
  cases op with
  | map => simp only [LoopOp.run, applyFunction_congr h]
  | filter | «exists» | forAll => simp only [LoopOp.run, hpredicate]

end

/-- **The evaluator asks at its own nodes, in scopes like its own**: two ways to answer that agree
there lead to the same evaluation. -/
theorem Expr.evalWith_congr (e : Expr) (sc : Scope) :
    AgreeOn script script' sc e.nodes → e.evalWith script sc = e.evalWith script' sc := by
  -- one case for each node, for each of the three kinds of lists, and for their ends
  refine (Expr.evalWith.mutual_induct
    (motive_1 := fun e sc => AgreeOn script script' sc e.nodes →
      e.evalWith script sc = e.evalWith script' sc)
    (motive_2 := fun es sc => AgreeOn script script' sc (nodesAll es) →
      Expr.evalPropositions script es sc = Expr.evalPropositions script' es sc)
    (motive_3 := fun es sc => AgreeOn script script' sc (nodesAll es) →
      Expr.evalAll script es sc = Expr.evalAll script' es sc)
    (motive_4 := fun ds sc => AgreeOn script script' sc (nodesDefs ds) →
      Expr.evalDefs script ds sc = Expr.evalDefs script' ds sc)
    ?const ?placeholder ?use ?block ?tuple ?sigmaAnd ?sigmaOr ?collOf ?context ?getVar ?unary
    ?register ?record ?arith ?compare ?and ?or ?orElse ?atLeast ?ifThenElse ?slice ?byIndex
    ?byIndexOr ?loop ?fold ?select ?dhTuple ?deserialize ?defsNil ?defsCons ?propsNil ?propsCons
    ?allNil ?allCons).1 e sc
  all_goals intros; simp only [Expr.evalWith, Expr.evalPropositions, Expr.evalAll, Expr.evalDefs]
  case block ds e sc hds he h =>
    obtain ⟨hd, hbody⟩ := h.tail.append
    refine enter_congr ?_
    rw [hds sc.deeper hd]
    exact (yields_evalDefs ds sc.deeper).bind_congr fun sc' hsc => he sc' (hbody.alike hsc)
  case tuple es sc hes h | sigmaAnd es sc hes h | sigmaOr es sc hes h | collOf t es sc hes h =>
    exact enter_congr (by simp only [hes sc.deeper h.tail])
  case unary op e sc he h | register e i t sc he h | record f e sc he h | select e i sc he h =>
    exact enter_congr (by simp only [he sc.deeper h.tail])
  case arith op a b sc ha hb h | compare op a b sc ha hb h =>
    obtain ⟨h, h'⟩ := h.tail.append
    exact enter_congr (by simp only [ha sc.deeper h, hb sc.deeper h'])
  case and a b sc ha hb h | or a b sc ha hb h | orElse a b sc ha hb h | atLeast a b sc ha hb h |
      byIndex a b sc ha hb h =>
    obtain ⟨h, h'⟩ := h.tail.append
    exact enter_congr (by simp only [ha sc.deeper h, hb sc.deeper h'])
  case ifThenElse a b c sc ha hb hc h | slice a b c sc ha hb hc h | byIndexOr a b c sc ha hb hc h =>
    obtain ⟨h, h''⟩ := h.tail.append
    obtain ⟨h, h'⟩ := h.append
    exact enter_congr (by simp only [ha sc.deeper h, hb sc.deeper h', hc sc.deeper h''])
  case loop op a sig body sc ha hbody h =>
    obtain ⟨h, h'⟩ := h.tail.append
    have hrun : op.run sig (fun sc => body.evalWith script sc) sc.deeper =
        op.run sig (fun sc => body.evalWith script' sc) sc.deeper :=
      funext fun c => LoopOp.run_congr (fun i v => hbody (sc.deeper.bind i v) h') c
    exact enter_congr (by simp only [ha sc.deeper h, hrun])
  case fold a zero sig body sc ha hzero hbody h =>
    obtain ⟨h, h''⟩ := h.tail.append
    obtain ⟨h, h'⟩ := h.append
    have happly : applyFunction sig (fun sc => body.evalWith script sc) sc.deeper =
        applyFunction sig (fun sc => body.evalWith script' sc) sc.deeper :=
      applyFunction_congr fun i v => hbody (sc.deeper.bind i v) h''
    exact enter_congr (by simp only [ha sc.deeper h, hzero sc.deeper h', happly])
  case dhTuple g h u v sc hg hh hu hv hagree =>
    obtain ⟨hagree, h₄⟩ := hagree.tail.append
    obtain ⟨hagree, h₃⟩ := hagree.append
    obtain ⟨h₁, h₂⟩ := hagree.append
    exact enter_congr (by simp only [hg sc.deeper h₁, hh sc.deeper h₂, hu sc.deeper h₃,
      hv sc.deeper h₄])
  case deserialize i t sc h =>
    exact enter_congr (h sc.deeper i t ⟨rfl, rfl⟩ (List.mem_singleton.2 rfl))
  case defsCons i e ds sc he hds h =>
    obtain ⟨h, h'⟩ := h.append
    rw [he h]
    exact bind_congr fun v => hds v h'
  case propsCons e es sc he hes h | allCons e es sc he hes h =>
    obtain ⟨h, h'⟩ := h.append
    rw [he h, hes h']

/-! ## Answering only what can be asked -/

/-- Answers what the expression can ask for in scopes like `sc`, and refuses the rest. -/
noncomputable def answering (script : Scope → UInt8 → ValueType → EvalM Value) (e : Expr)
    (sc sc' : Scope) (i : UInt8) (t : ValueType) : EvalM Value :=
  haveI := Classical.propDecidable (sc.Alike sc' ∧ .deserialize i t ∈ e.nodes)
  if sc.Alike sc' ∧ .deserialize i t ∈ e.nodes then script sc' i t
  else EvalM.malformed .nestedScript

theorem Expr.evalWith_answering (e : Expr) (sc : Scope) :
    e.evalWith (answering script e sc) sc = e.evalWith script sc :=
  e.evalWith_congr sc fun _ _ _ hsc hmem => if_pos ⟨hsc, hmem⟩

omit [Suite] in
/-- What is true of answers that can be asked for, and of refusals, is true of all answers. -/
theorem answering_of {C : EvalM Value → Prop} {e : Expr} {sc : Scope}
    (hasked : ∀ sc' i t, sc.Alike sc' → .deserialize i t ∈ e.nodes → C (script sc' i t))
    (hrefused : C (EvalM.malformed .nestedScript)) (sc' : Scope) (i : UInt8) (t : ValueType) :
    C (answering script e sc sc' i t) := by
  unfold answering
  split
  · rename_i h
    exact hasked sc' i t h.1 h.2
  · exact hrefused

/-! ## Reducing -/

/-- The variable holds this script. -/
def Scope.Holds (sc : Scope) (i : UInt8) (s : Expr) : Prop :=
  ∃ b, sc.context.extension.get? i = some (.bytes b) ∧ decodeScript sc.version b = .ok s

variable {P : Atom → Prop}

omit [Suite] in
theorem yields_scriptOctets (x : Extension) (i : UInt8) :
    Yields (scriptOctets x i) fun b => x.get? i = some (.bytes b) := by
  unfold scriptOctets
  split
  · exact .pure ‹_›
  · exact .malformed _
  · exact .failed _

/-- A script starts from the context and from its own constants. -/
theorem yields_runScript (hP : Atom.Kept P) {sc : Scope} (hctx : sc.context.Has P) {i : UInt8}
    (hscript : ∀ s, sc.Holds i s → s.Has P) (t : ValueType) :
    Yields (runScript sc i t) (Value.Has P) := by
  refine .bind (yields_scriptOctets _ _) fun b hb => .andThen fun _ => .bind (.lift fun s hs => hs)
    fun s hs => .bind ?_ fun v hv => .check fun _ => .pure hv
  exact Expr.yields_evalWith hP (fun _ _ _ _ => .malformed _) s _ (hscript s ⟨b, hb, hs⟩)
    hctx.isolated

/-- Scripts in variables that the expression names keep the property when they have it. -/
theorem keepsScripts_answering (hP : Atom.Kept P) {e : Expr} {sc : Scope} (hctx : sc.context.Has P)
    (hscripts : ∀ i t, .deserialize i t ∈ e.nodes → ∀ s, sc.Holds i s → s.Has P) :
    KeepsScripts P (answering runScript e sc) := by
  intro sc₁ i₁ t₁ _
  refine answering_of (C := fun x => Yields x (Value.Has P)) ?_ (.malformed _) sc₁ i₁ t₁
  intro sc' i t hsc hmem
  refine yields_runScript hP (hsc.1 ▸ hctx) (fun s hs => ?_) t
  rw [Scope.Holds, hsc.1, hsc.2] at hs
  exact hscripts i t hmem s hs

namespace Condition

variable {c : Condition} {ctx : Context}

/-- The condition may come to run this script: one of its nodes names a variable that holds it. -/
def Reads (c : Condition) (ctx : Context) (s : Expr) : Prop :=
  ∃ e ∈ c.root?, ∃ i t, .deserialize i t ∈ e.nodes ∧ (c.scope ctx).Holds i s

/-- All that a reduction can start from has the property. -/
structure StartsFrom (P : Atom → Prop) (c : Condition) (ctx : Context) : Prop where
  condition : c.Has P
  context : ctx.Has P
  scripts : ∀ s, c.Reads ctx s → s.Has P

/-- **What a condition comes down to** has the property that everything it starts from has. -/
theorem yields_run (hP : Atom.Kept P) (h : c.StartsFrom P ctx) :
    Yields (c.run ctx) fun p => P (.sigmaProp p) ∧ p.depth ≤ maxDepth := by
  obtain ⟨hconstants, hroot⟩ := h.condition.parsed
  have hscope : (c.scope ctx).Has P := ⟨h.context, hconstants, by simp [Condition.scope]⟩
  unfold Condition.run
  split
  · exact .fail _
  · rename_i e he
    split
    · exact .bind (.fail _) fun _ (h : False) => h.elim
    · -- only scripts that some node asks for are run, and these keep the property by assumption
      have hscripts : KeepsScripts P (answering runScript e (c.scope ctx)) :=
        keepsScripts_answering hP h.context fun i t hmem s hs => h.scripts s ⟨e, he, i, t, hmem, hs⟩
      rw [Expr.eval, ← Expr.evalWith_answering]
      exact .bind (Expr.yields_evalWith hP hscripts e _ (hroot e he) hscope) fun v hv =>
        yields_resultOf hP hv

/-- The proposition of a successful reduction. -/
theorem has_of_reduce (hP : Atom.Kept P) (h : c.StartsFrom P ctx) {limit : UInt64} {r : Reduction}
    (hr : c.reduce ctx limit = .ok r) :
    P (.sigmaProp r.proposition) ∧ r.proposition.depth ≤ maxDepth := by
  obtain ⟨m, hrun, -⟩ := Condition.reduce_eq_ok.1 hr
  exact yields_run hP h _ r.proposition m hrun

/-- **Reducing a condition is metered.**  The operations noted are those of its expression and of
scripts at its version. -/
theorem metered_run {A : Opcode → Prop} (hroot : ∀ e ∈ c.root?, ∀ op ∈ e.opcodes, A op)
    (hdecoded : ∀ b s, decodeScript c.version b = .ok s → ∀ op ∈ s.opcodes, A op) :
    Metered A (c.run ctx) := by
  unfold Condition.run
  split
  · exact .fail _
  · rename_i e he
    -- the version is the condition's in every scope, also where a script is read
    have hscript (sc : Scope) (i : UInt8) (t : ValueType) :
        Metered A (answering runScript e (c.scope ctx) sc i t) := by
      refine answering_of (C := fun x => Metered A x) ?_ (.malformed _) sc i t
      intro sc' i' t' hsc _
      refine metered_runScript ?_ i' t'
      rw [hsc.2]
      exact hdecoded
    rw [Expr.eval, ← Expr.evalWith_answering]
    exact .check (.fail _) (.bind (Expr.metered_evalWith hscript e _ (hroot e he)) fun v =>
      metered_resultOf v)

end Condition

end Covenant

/-
  NOTED — the values that a reduction comes across follow every discipline.

  1. **`Expr.keeps_evalWith`** — an expression keeps a discipline that allows all its nodes; one
     case for each node.
  2. **`Condition.Starts`** — all that a reduction can start from is in order: the values embedded in
     the condition and in what it sees, the nodes of its expression, and the scripts that it reads.
  3. **`Condition.follows_of_noted`** — so every value of the reduction follows the rule, the
     arguments of functions and the values before a failure included.
-/
import Covenant.Proofs.Reduction.Discipline

namespace Covenant

variable {D : Discipline}

/-! ## The evaluator -/

theorem keeps_enter {sc : Scope} (hsc : sc.Follows D) {op : Opcode} {node : Scope → EvalM Value}
    (hnode : ∀ sc, sc.Follows D → Keeps D (node sc) (Value.Follows D)) :
    Keeps D (enter sc op node) (Value.Follows D) :=
  .check fun _ => .bind (.charge _) fun _ _ => .bind (.note (by simp)) fun _ _ =>
    .bind (hnode _ hsc.deeper) fun _ hv => .bind (.noteValue hv) fun _ _ => .pure hv

/-- The discipline allows all of some nodes. -/
abbrev Discipline.AllowsAll (D : Discipline) (ns : List Expr) : Prop := ∀ n ∈ ns, D.Allows n

section Parts

variable {n : Expr} {ns ns₁ ns₂ ns₃ : List Expr}

/-- The nodes of a node's only part. -/
theorem Discipline.AllowsAll.part (h : D.AllowsAll (n :: ns)) : D.AllowsAll ns :=
  (List.forall_mem_cons.1 h).2

/-- The nodes of a node's two parts. -/
theorem Discipline.AllowsAll.parts (h : D.AllowsAll (n :: (ns₁ ++ ns₂))) :
    D.AllowsAll ns₁ ∧ D.AllowsAll ns₂ :=
  List.forall_mem_append.1 h.part

/-- The nodes of a node's three parts. -/
theorem Discipline.AllowsAll.threeParts (h : D.AllowsAll (n :: (ns₁ ++ ns₂ ++ ns₃))) :
    D.AllowsAll ns₁ ∧ D.AllowsAll ns₂ ∧ D.AllowsAll ns₃ := by
  obtain ⟨h₁₂, h₃⟩ := h.parts
  obtain ⟨h₁, h₂⟩ := List.forall_mem_append.1 h₁₂
  exact ⟨h₁, h₂, h₃⟩

end Parts

variable [Suite]

/-- What scripts that variables hold must keep. -/
def KeepsInScripts (D : Discipline) (script : Scope → UInt8 → ValueType → EvalM Value) : Prop :=
  ∀ sc i t, sc.Follows D → Keeps D (script sc i t) (Value.Follows D)

/-- **Every expression keeps a discipline that allows its nodes**, given that scripts read from
variables do. -/
theorem Expr.keeps_evalWith {script : Scope → UInt8 → ValueType → EvalM Value}
    (hscript : KeepsInScripts D script) (e : Expr) (sc : Scope) :
    D.AllowsAll e.nodes → sc.Follows D → Keeps D (e.evalWith script sc) (Value.Follows D) := by
  -- one case for each node, for each of the three kinds of lists, and for their ends
  refine (Expr.evalWith.mutual_induct
    (motive_1 := fun e sc => D.AllowsAll e.nodes → sc.Follows D →
      Keeps D (e.evalWith script sc) (Value.Follows D))
    (motive_2 := fun es sc => D.AllowsAll (nodesAll es) → sc.Follows D →
      Keeps D (Expr.evalPropositions script es sc) fun _ => True)
    (motive_3 := fun es sc => D.AllowsAll (nodesAll es) → sc.Follows D →
      Keeps D (Expr.evalAll script es sc) fun vs =>
        vs.length = es.length ∧ ∀ v ∈ vs, v.Follows D)
    (motive_4 := fun ds sc => D.AllowsAll (nodesDefs ds) → sc.Follows D →
      Keeps D (Expr.evalDefs script ds sc) (Scope.Follows D))
    ?const ?placeholder ?use ?block ?tuple ?sigmaAnd ?sigmaOr ?collOf ?context ?getVar ?unary
    ?register ?record ?arith ?compare ?and ?or ?orElse ?atLeast ?ifThenElse ?slice ?byIndex
    ?byIndexOr ?loop ?fold ?select ?dhTuple ?deserialize ?defsNil ?defsCons ?propsNil ?propsCons
    ?allNil ?allCons).1 e sc
  all_goals intros; simp only [Expr.evalWith, Expr.evalPropositions, Expr.evalAll, Expr.evalDefs]
  case const v _ h hsc =>
    have hv := (List.forall_mem_singleton.1 h).values v (List.mem_singleton.2 rfl)
    exact keeps_enter hsc fun _ _ => .pure hv
  case placeholder _ hsc =>
    refine keeps_enter hsc fun sc hsc => ?_
    split
    · exact .pure (hsc.constants _ (List.mem_of_getElem? ‹_›))
    · exact .malformed _
  case use _ hsc =>
    refine keeps_enter hsc fun sc hsc => ?_
    split
    · exact .pure (hsc.bindings _ (mem_of_lookup ‹_›))
    · exact .malformed _
  case block hds he h hsc =>
    obtain ⟨hd, hbody⟩ := h.parts
    exact keeps_enter hsc fun _ hsc => .bind (hds _ hd hsc) fun _ hsc => he _ hbody hsc
  case tuple hes h hsc =>
    obtain ⟨hnode, h⟩ := List.forall_mem_cons.1 h
    refine keeps_enter hsc fun _ hsc => .check fun hlen => .bind (hes _ h hsc) fun vs hvs =>
      .pure (Value.everywhere_tuple.2 ⟨D.tuple vs ?_ ?_, hvs.2⟩)
    · exact hvs.1 ▸ hnode.tuple _ rfl
    · exact hvs.1 ▸ Nat.not_lt.1 hlen
  case sigmaAnd hes h hsc =>
    exact keeps_enter hsc fun _ hsc => .check fun _ =>
      .bind (hes _ h.part hsc) fun _ _ => .pure (Value.follows_atom _)
  case sigmaOr hes h hsc =>
    exact keeps_enter hsc fun _ hsc => .check fun _ =>
      .bind (hes _ h.part hsc) fun _ _ => .pure (Value.follows_atom _)
  case collOf hes h hsc =>
    obtain ⟨hnode, h⟩ := List.forall_mem_cons.1 h
    exact keeps_enter hsc fun _ hsc => .bind (.chargeItems _) fun _ _ => .bind (hes _ h hsc)
      fun _ hvs => keeps_collectItems (hnode.types _ (List.mem_singleton.2 rfl)) hvs.2
  case context f _ _ hsc => exact keeps_enter hsc fun _ hsc => f.keeps_read hsc.context
  case getVar h hsc =>
    have ht := (List.forall_mem_singleton.1 h).types _ (List.mem_singleton.2 rfl)
    exact keeps_enter hsc fun _ hsc => .lift fun _ hv =>
      follows_readTyped ht hsc.context.variable hv
  case unary op _ _ he h hsc =>
    exact keeps_enter hsc fun _ hsc => .bind (he _ h.part hsc) fun _ hv =>
      op.keeps_apply hv
  case register he h hsc =>
    obtain ⟨hnode, h⟩ := List.forall_mem_cons.1 h
    have ht := hnode.types _ (List.mem_singleton.2 rfl)
    refine keeps_enter hsc fun _ hsc => .bind (he _ h hsc) fun v hv =>
      .bind v.finds_asBox.keeps fun b hb => .lift fun _ hw => ?_
    subst hb
    exact follows_readTyped ht (Box.everywhere_register hv) hw
  case record he h hsc =>
    exact keeps_enter hsc fun _ hsc => .bind (he _ h.part hsc) fun _ _ =>
      .lift fun _ hw => (RecordField.reading_of_read hw).follows_any
  case arith ha hb h hsc =>
    obtain ⟨h, h'⟩ := h.parts
    exact keeps_enter hsc fun _ hsc => .bind (ha _ h hsc) fun _ _ => .bind (hb _ h' hsc) fun _ _ =>
      .lift fun _ hv => (computed_arith hv).follows_any
  case compare ha hb h hsc =>
    obtain ⟨h, h'⟩ := h.parts
    exact keeps_enter hsc fun _ hsc => .bind (ha _ h hsc) fun _ _ => .bind (hb _ h' hsc) fun _ _ =>
      .lift fun _ hv => (computed_compare hv).follows_any
  case and ha hb h hsc =>
    obtain ⟨h, h'⟩ := h.parts
    exact keeps_enter hsc fun _ hsc => .bind (ha _ h hsc) fun v _ =>
      .bind v.finds_asBool.keeps fun _ _ =>
      .ite (.bind (hb _ h' hsc) fun w _ => .bind w.finds_asBool.keeps fun _ _ =>
        .pure (Value.follows_atom _)) (.pure (Value.follows_atom _))
  case or ha hb h hsc =>
    obtain ⟨h, h'⟩ := h.parts
    exact keeps_enter hsc fun _ hsc => .bind (ha _ h hsc) fun v _ =>
      .bind v.finds_asBool.keeps fun _ _ =>
      .ite (.pure (Value.follows_atom _)) (.bind (hb _ h' hsc) fun w _ =>
        .bind w.finds_asBool.keeps fun _ _ => .pure (Value.follows_atom _))
  case orElse ha hb h hsc =>
    obtain ⟨h, h'⟩ := h.parts
    refine keeps_enter hsc fun sc hsc => .bind (ha _ h hsc) fun v hv =>
      .bind v.finds_asOption.keeps fun o ho => ?_
    obtain ⟨t, rfl⟩ := ho
    split
    · exact .pure ((Value.everywhere_option.1 hv).2 _ rfl)
    · exact hb _ h' hsc
  case atLeast ha hb h hsc =>
    obtain ⟨h, h'⟩ := h.parts
    exact keeps_enter hsc fun _ hsc => .bind (ha _ h hsc) fun v _ =>
      .bind v.finds_asInt.keeps fun k _ =>
      .bind (hb _ h' hsc) fun w _ => .bind w.finds_asColl.keeps fun c _ => keeps_atLeastOf k c
  case ifThenElse ha hb hc h hsc =>
    obtain ⟨h, h', h''⟩ := h.threeParts
    exact keeps_enter hsc fun _ hsc => .bind (ha _ h hsc) fun v _ =>
      .bind v.finds_asBool.keeps fun _ _ =>
      .ite (hb _ h' hsc) (hc _ h'' hsc)
  case slice ha hb hc h hsc =>
    obtain ⟨h, h', h''⟩ := h.threeParts
    refine keeps_enter hsc fun _ hsc => .bind (ha _ h hsc) fun v hv =>
      .bind v.finds_asColl.keeps fun c hcoll => .bind (hb _ h' hsc) fun w _ =>
      .bind w.finds_asInt.keeps fun l _ => .bind (hc _ h'' hsc) fun w _ => .bind w.finds_asInt.keeps fun u _ => ?_
    exact keeps_sliceColl (hcoll ▸ hv) l u
  case byIndex ha hb h hsc =>
    obtain ⟨h, h'⟩ := h.parts
    refine keeps_enter hsc fun _ hsc => .bind (ha _ h hsc) fun v hv =>
      .bind v.finds_asColl.keeps fun c hcoll => .bind (hb _ h' hsc) fun w _ =>
      .bind w.finds_asInt.keeps fun i _ => ?_
    split
    · exact .pure (Coll.follows_itemAt? (hcoll ▸ hv) _ ‹_›)
    · exact .failed _
  case byIndexOr ha hb hd h hsc =>
    obtain ⟨h, h', h''⟩ := h.threeParts
    refine keeps_enter hsc fun _ hsc => .bind (ha _ h hsc) fun v hv =>
      .bind v.finds_asColl.keeps fun c hcoll => .bind (hb _ h' hsc) fun w _ =>
      .bind w.finds_asInt.keeps fun i _ => ?_
    split
    · exact .pure (Coll.follows_itemAt? (hcoll ▸ hv) _ ‹_›)
    · exact hd _ h'' hsc
  case loop op _ sig _ _ ha hbody h hsc =>
    obtain ⟨hnode, h⟩ := List.forall_mem_cons.1 h
    obtain ⟨h, h'⟩ := List.forall_mem_append.1 h
    have hresult := hnode.types sig.result (List.mem_append_right _ (List.mem_singleton.2 rfl))
    exact keeps_enter hsc fun _ hsc => .bind (ha _ h hsc) fun v hv =>
      .bind v.finds_asColl.keeps fun c hcoll =>
        op.keeps_run (fun sc hsc => hbody sc h' hsc) hsc hresult (hcoll ▸ hv)
  case fold ha hzero hbody h hsc =>
    obtain ⟨h, h', h''⟩ := h.threeParts
    exact keeps_enter hsc fun _ hsc => .bind (ha _ h hsc) fun v hv =>
      .bind v.finds_asColl.keeps fun c hcoll => .bind (hzero _ h' hsc) fun _ hacc =>
      .bind (.chargeItems _) fun _ _ => keeps_foldItems (fun sc hsc => hbody sc h'' hsc) hsc hacc
        (Coll.follows_of_mem (hcoll ▸ hv))
  case select he h hsc =>
    exact keeps_enter hsc fun _ hsc => .bind (he _ h.part hsc) fun _ hv =>
      keeps_selectItem hv _
  case dhTuple hg hh hu hv h hsc =>
    obtain ⟨h, h₄⟩ := h.parts
    obtain ⟨h, h₃⟩ := List.forall_mem_append.1 h
    obtain ⟨h₁, h₂⟩ := List.forall_mem_append.1 h
    exact keeps_enter hsc fun _ hsc =>
      .bind (hg _ h₁ hsc) fun v _ => .bind v.finds_asPoint.keeps fun _ _ =>
      .bind (hh _ h₂ hsc) fun v _ => .bind v.finds_asPoint.keeps fun _ _ =>
      .bind (hu _ h₃ hsc) fun v _ => .bind v.finds_asPoint.keeps fun _ _ =>
      .bind (hv _ h₄ hsc) fun v _ => .bind v.finds_asPoint.keeps fun _ _ =>
        .pure (Value.follows_atom _)
  case deserialize _ hsc => exact keeps_enter hsc fun _ hsc => hscript _ _ _ hsc
  case defsNil hsc => exact .pure hsc
  case defsCons he hds h hsc =>
    obtain ⟨h, h'⟩ := List.forall_mem_append.1 h
    exact .bind (he h hsc) fun v hv => hds v h' (hsc.bind _ hv)
  case propsNil => exact .pure trivial
  case propsCons he hes h hsc =>
    obtain ⟨h, h'⟩ := List.forall_mem_append.1 h
    exact .bind (he h hsc) fun v _ => .bind v.finds_asProposition.keeps fun _ _ =>
      .bind (hes h' hsc) fun _ _ => .pure trivial
  case allNil => exact .pure ⟨rfl, List.forall_mem_nil _⟩
  case allCons he hes h hsc =>
    obtain ⟨h, h'⟩ := List.forall_mem_append.1 h
    exact .bind (he h hsc) fun v hv => .bind (hes h' hsc) fun vs hvs =>
      .pure ⟨congrArg (· + 1) hvs.1, List.forall_mem_cons.2 ⟨hv, hvs.2⟩⟩

/-! ## Reducing -/

omit [Suite] in
theorem keeps_scriptOctets (x : Extension) (i : UInt8) :
    Keeps D (scriptOctets x i) fun b => x.get? i = some (.bytes b) := by
  unfold scriptOctets
  split
  · exact .pure ‹_›
  · exact .malformed _
  · exact .failed _

/-- A script starts from the context and from its own constants. -/
theorem keeps_runScript {sc : Scope} (hctx : sc.context.Follows D) {i : UInt8}
    (hscript : ∀ s, sc.Holds i s → D.AllowsAll s.nodes) (t : ValueType) :
    Keeps D (runScript sc i t) (Value.Follows D) := by
  refine .bind (keeps_scriptOctets _ _) fun b hb => .bind (.charge _) fun _ _ =>
    .bind (.lift fun s hs => hs) fun s hs => .bind ?_ fun v hv => .check fun _ => .pure hv
  exact Expr.keeps_evalWith (fun _ _ _ _ => .malformed _) s _ (hscript s ⟨b, hb, hs⟩) hctx.isolated

omit [Suite] in
/-- What a condition comes down to is not noted. -/
theorem keeps_resultOf (v : Value) : Keeps D (resultOf v) fun _ => True := by
  have accounted (p : Proposition) : Keeps (α := Proposition) D (do
      if maxDepth < p.depth then EvalM.malformed .propositionTooDeep
      EvalM.charge p.verificationCost
      return p) fun _ => True :=
    .check fun _ => .bind (.charge _) fun _ _ => .pure trivial
  simp only [resultOf]
  split
  · exact .bind (.pure trivial) fun p (_ : True) => accounted p
  · exact .bind (.pure trivial) fun p (_ : True) => accounted p
  · exact .bind (.malformed _) fun p (_ : True) => accounted p

namespace Condition

variable {c : Condition} {ctx : Context}

/-- All values embedded in the condition and in what it sees have the property: constants, in the
table and in the expression, the registers of boxes, and the variables of the input. -/
structure Embeds (P : Value → Prop) (c : Condition) (ctx : Context) : Prop where
  constants : ∀ v ∈ c.constants, P v
  expression : ∀ e ∈ c.root?, ∀ v, .const v ∈ e.nodes → P v
  registers : ∀ b ∈ ctx.tx.inputs ++ ctx.tx.dataInputs ++ ctx.tx.outputs,
    ∀ v ∈ b.candidate.registers, P v
  extension : ∀ e ∈ ctx.extension.entries, P e.2

omit [Suite] in
theorem Embeds.imp {P Q : Value → Prop} (h : c.Embeds P ctx) (himp : ∀ v, P v → Q v) :
    c.Embeds Q ctx where
  constants v hv := himp v (h.constants v hv)
  expression e he v hv := himp v (h.expression e he v hv)
  registers b hb v hv := himp v (h.registers b hb v hv)
  extension e he := himp e.2 (h.extension e he)

omit [Suite] in
theorem Embeds.and {P Q R : Value → Prop} (h : c.Embeds P ctx) (h' : c.Embeds Q ctx)
    (hboth : ∀ v, P v → Q v → R v) : c.Embeds R ctx where
  constants v hv := hboth v (h.constants v hv) (h'.constants v hv)
  expression e he v hv := hboth v (h.expression e he v hv) (h'.expression e he v hv)
  registers b hb v hv := hboth v (h.registers b hb v hv) (h'.registers b hb v hv)
  extension e he := hboth e.2 (h.extension e he) (h'.extension e he)

omit [Suite] in
/-- All boxes in sight follow the rule when their registers do. -/
theorem Embeds.context (h : c.Embeds (Value.Follows D) ctx) : ctx.Follows D := by
  have hbox {b : Box} (hb : b ∈ ctx.tx.inputs ++ ctx.tx.dataInputs ++ ctx.tx.outputs) :
      (Value.box b).Follows D := Value.everywhere_box.2 ⟨D.box b, h.registers b hb⟩
  exact ⟨fun b hb => hbox (by simp [hb]), fun b hb => hbox (by simp [hb]),
    fun b hb => hbox (by simp [hb]), h.extension⟩

/-- All that a reduction can start from is in order. -/
structure Starts (D : Discipline) (c : Condition) (ctx : Context) : Prop where
  embedded : c.Embeds (Value.Follows D) ctx
  expression : ∀ e ∈ c.root?, ∀ n ∈ e.nodes, D.Permits n
  scripts : ∀ s, c.Reads ctx s → D.AllowsAll s.nodes

/-- Values stand in the nodes that are constants. -/
theorem Starts.allowsAll (h : c.Starts D ctx) {e : Expr} (he : e ∈ c.root?) :
    D.AllowsAll e.nodes := by
  refine fun n hn => { h.expression e he n hn with values := fun v hv => ?_ }
  cases n with
  | const w =>
    obtain rfl := List.mem_singleton.1 hv
    exact h.embedded.expression e he v hn
  | _ => cases hv

theorem keeps_run (h : c.Starts D ctx) : Keeps D (c.run ctx) fun _ => True := by
  have hctx := h.embedded.context
  have hscope : (c.scope ctx).Follows D := ⟨hctx, h.embedded.constants, List.forall_mem_nil _⟩
  unfold run
  split
  · exact .fail _
  · rename_i e he
    split
    · exact .failThen _ _
    -- of the scripts only those that the condition can read are in order
    · have hscripts : KeepsInScripts D (answering runScript e (c.scope ctx)) := by
        intro sc i t _
        refine answering_of (C := fun x => Keeps D x (Value.Follows D)) ?_ (.malformed _) sc i t
        intro sc' i' t' hsc' hmem
        refine keeps_runScript (hsc'.1 ▸ hctx) (fun s hs => ?_) t'
        rw [Scope.Holds, hsc'.1, hsc'.2] at hs
        exact h.scripts s ⟨e, he, i', t', hmem, hs⟩
      rw [Expr.eval, ← Expr.evalWith_answering]
      exact .bind (Expr.keeps_evalWith hscripts e _ (h.allowsAll he) hscope)
        fun v _ => keeps_resultOf v

/-- Reducing the condition comes across this value: it is the value of a node, of a script as well,
or the argument of a function. -/
def Notes (c : Condition) (ctx : Context) (limit : UInt64) (v : Value) : Prop :=
  v ∈ ((c.run ctx).run (Meter.new limit)).2.journal.filterMap Step.value?

instance (ctx : Context) (limit : UInt64) (v : Value) : Decidable (c.Notes ctx limit v) :=
  inferInstanceAs (Decidable (v ∈ _))

/-- **Every value of a reduction follows the rule** when all that it can start from does, whatever
the limit and however the reduction ends. -/
theorem follows_of_noted (h : c.Starts D ctx) {limit : UInt64} {v : Value}
    (hv : c.Notes ctx limit v) : v.Follows D := by
  obtain ⟨step, hstep, hvalue⟩ := List.mem_filterMap.1 hv
  have hnew : (Meter.new limit).Follows D := fun _ _ hnoted => absurd hnoted List.not_mem_nil
  cases step <;> cases hvalue
  exact (keeps_run h _ hnew).1 v _ hstep

end Condition

end Covenant

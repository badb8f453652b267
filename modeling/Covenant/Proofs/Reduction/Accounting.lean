/-
  ACCOUNTING — a meter covers the effort of what it measures.

  Every node pays its price before it runs, and every collection operation pays for its items.  As
  prices are positive and sums are exact below the largest cost, what was spent covers what was
  done: of a run that ends well its whole effort, and of any run the nodes that it entered.

  1. **`Meter.entered`** — how many nodes were entered, by the journal.
  2. **`Accounts x s`** — a run of `x` that ends well enters the nodes of the effort `s` and spends
     what `s` costs at least; and no run enters more nodes than it spends units.  What spends and
     does nothing accounts for no effort (`Accounts.of_silent`), and sequences add up.
  3. **`Proposition.verificationCost_eq`** — what is charged for a proposition, counted with a stack
     in 64 bits, is the sum over its tree.
  4. **`Expr.accounts_evalWith`** — every expression accounts for its effort: one case for each node.
  5. **`Condition.cost_accounts`** — the cost that a reduction reports accounts for every step.
-/
import Covenant.Proofs.Reduction.Effort
import Covenant.Proofs.Reduction.Gating
import Covenant.Proofs.Reduction.Growth

namespace Covenant

/-! ## Nodes in a journal -/

/-- Whether the step is the entry of a node. -/
def Step.isNode : Step → Bool
  | .node _ => true
  | _ => false

/-- How many nodes were entered. -/
def Meter.entered (m : Meter) : Nat := m.journal.countP Step.isNode

theorem Meter.entered_note (m : Meter) (s : Step) :
    (m.note s).entered = m.entered + if s.isNode then 1 else 0 := List.countP_cons

/-- Spends and notes values, but enters no node. -/
abbrev Silent {α : Type} (x : EvalM α) : Prop := Metered (fun _ => False) x

theorem Silent.entered_eq {α : Type} {x : EvalM α} (hx : Silent x) (m : Meter) :
    (x.run m).2.entered = m.entered := by
  induction hx generalizing m with
  | pure | fail => rfl
  | charge cost =>
    rw [EvalM.run_charge]
    split <;> rfl
  | note s hs =>
    rw [EvalM.run_note, Meter.entered_note]
    cases s with
    | node op => exact (hs op rfl).elim
    | items | value => rfl
  | noteValue v =>
    rw [EvalM.run_noteValue, Meter.entered_note]
    rfl
  | bind _ _ ihx ihf =>
    have hfirst := ihx m
    rw [EvalM.run_bind]
    split
    · rename_i a m' hrun
      rw [hrun] at hfirst
      rw [ihf]
      exact hfirst
    · rename_i e m' hrun
      rwa [hrun] at hfirst

theorem Silent.metered {α : Type} {x : EvalM α} (hx : Silent x) : Metered (fun _ => True) x := by
  induction hx with
  | pure a => exact .pure a
  | fail e => exact .fail e
  | charge cost => exact .charge cost
  | note s _ => exact .note s fun _ _ => trivial
  | noteValue v => exact .noteValue v
  | bind _ _ ihx ihf => exact .bind ihx ihf

/-! ## Computations that account for an effort -/

/-- From a meter within a limit below the largest cost, no run enters more nodes than it spends
units, and one that ends well enters the nodes of `s` and spends at least what `s` costs. -/
structure Accounts {α : Type} (x : EvalM α) (s : Effort) : Prop where
  metered : Metered (fun _ => True) x
  entered_le : ∀ {m : Meter}, m.Within → m.limit < maxCost →
    (x.run m).2.entered + m.spent ≤ m.entered + (x.run m).2.spent
  covers : ∀ {m m' : Meter} {a : α}, m.Within → m.limit < maxCost → x.run m = (.ok a, m') →
    m'.entered = m.entered + s.nodes ∧ m.spent + s.cost ≤ m'.spent

namespace Accounts

variable {α β : Type} {x : EvalM α} {f : α → EvalM β} {s t w : Effort} {next : α → Effort}

/-- What enters no node accounts for no effort, whatever it spends. -/
theorem of_silent (hx : Silent x) : Accounts x 0 where
  metered := hx.metered
  entered_le {m} hm _ := by
    rw [Silent.entered_eq hx]
    exact Nat.add_le_add_left (hx.run_meter hm).1 _
  covers {m m' a} hm _ hrun := by
    have hentered := Silent.entered_eq hx m
    have hspent := (hx.run_meter hm).1
    rw [hrun] at hentered hspent
    exact ⟨hentered, hspent⟩

/-- Charging for items accounts for them: below the largest cost nothing is lost. -/
theorem chargeItems (n : Nat) : Accounts (EvalM.chargeItems n) (.ofItems n) where
  metered := .chargeItems n
  entered_le hm _ := by
    -- items are no nodes, so nothing is entered
    have hsilent : Silent (EvalM.chargeItems n) := .chargeItems n
    rw [Silent.entered_eq hsilent]
    exact Nat.add_le_add_left (hsilent.run_meter hm).1 _
  covers {m m' a} hm hlimit hrun := by
    rw [EvalM.chargeItems, EvalM.chargeUnits, EvalM.run_charge_bind] at hrun
    split at hrun
    · cases hrun
    · rename_i hle
      rw [EvalM.run_note] at hrun
      cases hrun
      refine ⟨rfl, ?_⟩
      show m.spent + (Effort.ofItems n).cost ≤ addCost m.spent (unitsCost n itemCost)
      rw [Effort.cost_ofItems, Nat.mul_comm]
      unfold addCost unitsCost at hle ⊢
      omega

/-- Whatever the first step returns, what the second does from there is added. -/
theorem bindTo (hx : Accounts x s) (hf : ∀ a, Accounts (f a) (next a))
    (hw : ∀ a, Returns x a → w = s + next a) : Accounts (x >>= f) w where
  metered := .bind hx.metered fun a => (hf a).metered
  entered_le {m} hm hlimit := by
    have hfirst := hx.entered_le hm hlimit
    obtain ⟨-, hsame, hwithin⟩ := hx.metered.run_meter hm
    rw [EvalM.run_bind]
    -- a failure keeps what was entered before it; otherwise both parts add up
    rcases hrun : x.run m with ⟨_ | a, m'⟩
    · rwa [hrun] at hfirst
    · rw [hrun] at hfirst hsame hwithin
      have hthen := (hf a).entered_le hwithin (hsame ▸ hlimit)
      dsimp only at hfirst hthen ⊢
      omega
  covers {m m' b} hm hlimit hrun := by
    obtain ⟨a, m₁, hfirst, hthen⟩ := EvalM.run_bind_eq_ok.1 hrun
    obtain ⟨-, hsame, hwithin⟩ := hx.metered.run_meter hm
    rw [hfirst] at hsame hwithin
    have hwithin' : m₁.Within := hwithin
    have hlimit' : m₁.limit < maxCost := hsame ▸ hlimit
    obtain ⟨hentered, hspent⟩ := hx.covers hm hlimit hfirst
    obtain ⟨hentered', hspent'⟩ := (hf a).covers hwithin' hlimit' hthen
    -- the effort of the rest is that for the value which the first part gave
    rw [hw a ⟨m, m₁, hfirst⟩, Effort.nodes_add, Effort.cost_add]
    omega

/-- The effort of the second step depends on what the first returns. -/
theorem bind (hx : Accounts x s) (hf : ∀ a, Accounts (f a) (next a)) :
    Accounts (x >>= f) (s + x.after next) :=
  bindTo hx hf fun a ha => by rw [EvalM.after_eq hx.metered ha]

/-- The effort of the second step does not depend on what the first returns. -/
theorem andThen (hx : Accounts x s) (hf : ∀ a, Accounts (f a) t) : Accounts (x >>= f) (s + t) :=
  bindTo hx hf fun _ _ => rfl

/-- The second step enters no node. -/
theorem ending (hx : Accounts x s) (hf : ∀ a, Silent (f a)) : Accounts (x >>= f) s :=
  bindTo hx (fun a => of_silent (hf a)) fun _ _ => (Effort.add_zero s).symm

/-- The first step enters no node, but the second depends on it. -/
theorem reading (hx : Silent x) (hf : ∀ a, Accounts (f a) (next a)) :
    Accounts (x >>= f) (x.after next) :=
  bindTo (of_silent hx) hf fun a ha => by rw [EvalM.after_eq hx.metered ha, Effort.zero_add]

/-- The first step enters no node, and the second does not depend on it. -/
theorem skip (hx : Silent x) (hf : ∀ a, Accounts (f a) t) : Accounts (x >>= f) t :=
  bindTo (of_silent hx) hf fun _ _ => (Effort.zero_add t).symm

/-- A check in front of a computation, which fails or not. -/
theorem check {c : Prop} [Decidable c] {y : EvalM PUnit} (hy : Silent y) (hx : Accounts x s) :
    Accounts (if c then y >>= fun _ => x else x) s := by
  split
  · exact skip hy fun _ => hx
  · exact hx

theorem ite {c : Prop} [Decidable c] {y : EvalM α} (hx : Accounts x s) (hy : Accounts y t) :
    Accounts (if c then x else y) (if c then s else t) := by
  split
  · exact hx
  · exact hy

end Accounts

/-- To enter a node is to pay its price, which is one unit at least. -/
theorem accounts_entry (op : Opcode) :
    Accounts (EvalM.charge op.cost >>= fun _ => EvalM.note (.node op)) .node where
  metered := .bind (.charge _) fun _ => .note _ fun _ _ => trivial
  entered_le {m} hm hlimit := by
    have hprice := op.cost_pos
    rw [EvalM.run_charge_bind]
    split
    · exact Nat.le_refl _
    · rename_i hle
      rw [EvalM.run_note, Meter.entered_note]
      show m.entered + 1 + m.spent ≤ m.entered + addCost m.spent op.cost
      unfold addCost at hle ⊢
      omega
  covers {m m' u} hm hlimit hrun := by
    have hprice := op.cost_pos
    -- a node that was entered was paid for, and every opcode costs at least one
    rw [EvalM.run_charge_bind] at hrun
    split at hrun
    · cases hrun
    · rename_i hle
      rw [EvalM.run_note] at hrun
      cases hrun
      refine ⟨Meter.entered_note .., ?_⟩
      show m.spent + 1 ≤ addCost m.spent op.cost
      unfold addCost at hle ⊢
      omega

/-- **A node accounts for itself** and for what it does once it is entered. -/
theorem accounts_enter (sc : Scope) (op : Opcode) {node : Scope → EvalM Value} {s : Effort}
    (hnode : Accounts (node sc.deeper) s) : Accounts (enter sc op node) (.node + s) := by
  have hrun := (accounts_entry op).andThen fun _ => hnode.ending fun v =>
    .bind (.noteValue v) fun _ => .pure v
  rw [bind_assoc] at hrun
  exact .check (.malformed _) hrun

/-! ## Operations on values -/

theorem accounts_boolItems (v : Value) :
    Accounts (boolItems v) (v.asColl.after fun c => .ofItems c.toList.length) := by
  refine .reading v.finds_asColl.metered fun c => ?_
  rw [Coll.length_toList]
  refine (Accounts.chargeItems c.size).ending fun _ => ?_
  split <;> constructor

theorem UnaryOp.accounts_apply [Suite] (v : Value) (op : UnaryOp) :
    Accounts (op.apply v) (op.effort v) := by
  cases op with
  | allOf | anyOf => exact (accounts_boolItems v).ending fun _ => .pure _
  | _ => exact .of_silent (metered_apply v _)

theorem accounts_sliceColl (c : Coll) (lower upper : Int32) :
    Accounts (sliceColl c lower upper)
      (.ofItems (clamp upper c.toList.length - clamp lower c.toList.length)) := by
  have hrange : clamp upper c.toList.length - clamp lower c.toList.length =
      clamp upper c.size - min (clamp lower c.size) (clamp upper c.size) := by
    rw [Coll.length_toList]
    omega
  rw [hrange]
  exact (Accounts.chargeItems _).ending fun _ => .pure _

/-- Going through a list keeps its length. -/
theorem length_of_returns_propositionItems {c : Coll} {ps : List Proposition}
    (h : Returns (propositionItems c) ps) : ps.length = c.toList.length := by
  obtain rfl := ((finds_propositionItems c).exact.returns_iff ps).1 h
  rw [Coll.toList, List.length_map]

theorem accounts_atLeastOf (k : Int32) (c : Coll) :
    Accounts (atLeastOf k c) (.ofItems c.toList.length) := by
  refine .bindTo (.of_silent (finds_propositionItems c).metered)
    (fun ps => .check (.malformed _) ((Accounts.chargeItems ps.length).ending fun _ => .pure _))
    fun ps hps => ?_
  rw [length_of_returns_propositionItems hps, Effort.zero_add]

/-! ## Functions applied to items -/

section Functions

variable {sig : Signature} {body : Scope → EvalM Value} {bodyEffort : Scope → Effort}
  (hbody : ∀ sc, Accounts (body sc) (bodyEffort sc))

include hbody

theorem accounts_applyFunction (sc : Scope) (arg : Value) :
    Accounts (applyFunction sig body sc arg) (sig.effort bodyEffort sc arg) := by
  obtain ⟨args, result⟩ := sig
  rcases args with - | ⟨⟨id, t⟩, - | ⟨_, _⟩⟩
  · exact .of_silent (.malformed _)
  · exact .check (.malformed _) (.skip (.noteValue arg) fun _ => (hbody _).ending fun v =>
      .check (.malformed _) (.pure v))
  · exact .of_silent (.malformed _)

theorem accounts_applyPredicate (sc : Scope) (arg : Value) :
    Accounts (applyPredicate sig body sc arg) (sig.effort bodyEffort sc arg) := by
  refine (accounts_applyFunction hbody sc arg).ending fun v => ?_
  split <;> constructor

end Functions

section Items

variable {g : Value → Effort} {f : Value → EvalM Value} {p : Value → EvalM Bool}

theorem accounts_mapItems (hf : ∀ v, Accounts (f v) (g v)) (vs : List Value) :
    Accounts (mapItems f vs) (vs.map g).sum := by
  induction vs with
  | nil => exact .of_silent (.pure [])
  | cons v vs ih =>
    rw [List.map_cons, List.sum_cons]
    exact (hf v).andThen fun _ => ih.ending fun _ => .pure _

theorem accounts_filterItems (hp : ∀ v, Accounts (p v) (g v)) (vs : List Value) :
    Accounts (filterItems p vs) (vs.map g).sum := by
  induction vs with
  | nil => exact .of_silent (.pure [])
  | cons v vs ih =>
    rw [List.map_cons, List.sum_cons]
    exact (hp v).andThen fun _ => ih.ending fun _ => .pure _

theorem accounts_findItem (hp : ∀ v, Accounts (p v) (g v)) (wanted : Bool) (vs : List Value) :
    Accounts (findItem p wanted vs) (findEffort p g wanted vs) := by
  induction vs with
  | nil => exact .of_silent (.pure false)
  | cons v vs ih =>
    exact (Accounts.chargeItems 1).andThen fun _ => (hp v).bind fun b =>
      .ite (.of_silent (.pure true)) ih

theorem accounts_foldItems (hf : ∀ v, Accounts (f v) (g v)) (acc : Value) (vs : List Value) :
    Accounts (foldItems f acc vs) (foldEffort f g acc vs) := by
  induction vs generalizing acc with
  | nil => exact .of_silent (.pure acc)
  | cons v vs ih => exact (hf _).bind fun acc => ih acc

end Items

theorem LoopOp.accounts_run (op : LoopOp) {sig : Signature} {body : Scope → EvalM Value}
    {bodyEffort : Scope → Effort} (hbody : ∀ sc, Accounts (body sc) (bodyEffort sc)) (sc : Scope)
    (c : Coll) : Accounts (op.run sig body sc c) (op.effort sig body bodyEffort sc c) := by
  cases op with
  | map =>
    rw [effort, Coll.length_toList]
    exact (Accounts.chargeItems c.size).andThen fun _ =>
      (accounts_mapItems (accounts_applyFunction hbody sc) c.toList).ending fun _ =>
        (finds_collectItems ..).metered
  | filter =>
    rw [effort, Coll.length_toList]
    exact (Accounts.chargeItems c.size).andThen fun _ =>
      (accounts_filterItems (accounts_applyPredicate hbody sc) c.toList).ending fun _ => .pure _
  | «exists» | forAll =>
    exact (accounts_findItem (accounts_applyPredicate hbody sc) _ c.toList).ending fun _ => .pure _

/-! ## Propositions -/

namespace Proposition

mutual

/-- The sum of the prices of all leaves and of the children of all connectives. -/
def verificationSum : Proposition → Nat
  | .trivial _ => 0
  | .leaf (.dlog _) => dlogCost
  | .leaf (.dhTuple _ _ _ _) => dhTupleCost
  | .node _ cs => childCost * cs.length + verificationSumAll cs

/-- The sums of some propositions. -/
def verificationSumAll : List Proposition → Nat
  | [] => 0
  | c :: cs => c.verificationSum + verificationSumAll cs

end

theorem verificationSumAll_eq_sum (ps : List Proposition) :
    verificationSumAll ps = (ps.map verificationSum).sum := by
  induction ps with
  | nil => rfl
  | cons p ps ih => rw [verificationSumAll, ih, List.map_cons, List.sum_cons]

/-- A sum is the price of the root and the sums of its children. -/
theorem ofNat_verificationSum (p : Proposition) : UInt64.ofNat p.verificationSum =
    p.nodePrice + UInt64.ofNat (verificationSumAll p.children) := by
  cases p with
  | trivial b => rfl
  | leaf s => cases s <;> rfl
  | node c cs =>
    rw [verificationSum, UInt64.ofNat_add, UInt64.ofNat_mul]
    rfl

/-- The loop adds the sums of what is on its stack, in 64 bits. -/
theorem addPrices_eq (cost : UInt64) (ps : List Proposition) :
    addPrices cost ps = cost + UInt64.ofNat (verificationSumAll ps) := by
  induction cost, ps using addPrices.induct with
  | case1 cost => rw [addPrices, verificationSumAll]; simp
  | case2 cost p stack ih =>
    have hsplit : verificationSumAll (p.children.reverse ++ stack) =
        verificationSumAll p.children + verificationSumAll stack := by
      simp [verificationSumAll_eq_sum]
    rw [addPrices, ih, hsplit, verificationSumAll, UInt64.ofNat_add, UInt64.ofNat_add,
      ofNat_verificationSum, UInt64.add_assoc, UInt64.add_assoc]

/-- **The cost of verifying a proof** is the sum over the proposition whenever 64 bits hold it. -/
theorem verificationCost_eq {p : Proposition} (h : p.verificationSum < 2 ^ 64) :
    p.verificationCost = p.verificationSum := by
  have hsum : verificationSumAll [p] = p.verificationSum := Nat.add_zero _
  rw [verificationCost, addPrices_eq, hsum, UInt64.zero_add, UInt64.toNat_ofNat_of_lt' h]

end Proposition

/-- What verifying a proof costs is charged last. -/
theorem spent_of_resultOf {v : Value} {p : Proposition} {m m' : Meter} (hlimit : m.limit < maxCost)
    (h : (resultOf v).run m = (.ok p, m')) : m.spent + p.verificationCost ≤ m'.spent := by
  -- both kinds of result are charged alike
  have charged {q : Proposition} {m : Meter} (hlimit : m.limit < maxCost) (h : (do
      if maxDepth < q.depth then EvalM.malformed .propositionTooDeep
      EvalM.charge q.verificationCost
      return q : EvalM Proposition).run m = (.ok p, m')) :
      m.spent + p.verificationCost ≤ m'.spent := by
    split at h
    · cases h
    · rw [EvalM.run_charge_bind] at h
      split at h
      · cases h
      · rename_i hle
        cases h
        show m.spent + p.verificationCost ≤ addCost m.spent p.verificationCost
        unfold addCost at hle ⊢
        omega
  simp only [resultOf] at h
  split at h
  · obtain ⟨_, _, ⟨⟩, hrest⟩ := EvalM.run_bind_eq_ok.1 h
    exact charged hlimit hrest
  · obtain ⟨_, _, ⟨⟩, hrest⟩ := EvalM.run_bind_eq_ok.1 h
    exact charged hlimit hrest
  · cases h

/-! ## The evaluator -/

section

variable [Suite]

/-- **Every expression accounts for its effort**, given that scripts in variables do. -/
theorem Expr.accounts_evalWith {script : Scope → UInt8 → ValueType → EvalM Value}
    {scriptEffort : Scope → UInt8 → ValueType → Effort}
    (hscript : ∀ sc i t, Accounts (script sc i t) (scriptEffort sc i t)) (e : Expr) (sc : Scope) :
    Accounts (e.evalWith script sc) (e.effort script scriptEffort sc) := by
  -- one case for each node, for each of the three kinds of lists, and for their ends
  refine (Expr.evalWith.mutual_induct
    (motive_1 := fun e sc => Accounts (e.evalWith script sc) (e.effort script scriptEffort sc))
    (motive_2 := fun es sc => Accounts (Expr.evalPropositions script es sc)
      (Expr.effortAll script scriptEffort es sc))
    (motive_3 := fun es sc => Accounts (Expr.evalAll script es sc)
      (Expr.effortAll script scriptEffort es sc))
    (motive_4 := fun ds sc => Accounts (Expr.evalDefs script ds sc)
      (Expr.effortDefs script scriptEffort ds sc))
    ?const ?placeholder ?use ?block ?tuple ?sigmaAnd ?sigmaOr ?collOf ?context ?getVar ?unary
    ?register ?record ?arith ?compare ?and ?or ?orElse ?atLeast ?ifThenElse ?slice ?byIndex
    ?byIndexOr ?loop ?fold ?select ?dhTuple ?deserialize ?defsNil ?defsCons ?propsNil ?propsCons
    ?allNil ?allCons).1 e sc
  all_goals
    intros
    simp only [Expr.evalWith, Expr.evalPropositions, Expr.evalAll, Expr.evalDefs, Expr.effort,
      Expr.effortAll, Expr.effortDefs]
  case const => exact accounts_enter _ _ (.of_silent (.pure _))
  case placeholder | use => exact accounts_enter _ _ (.of_silent (by split <;> constructor))
  case block hds he => exact accounts_enter _ _ (.bind (hds _) fun sc => he sc)
  case tuple hes => exact accounts_enter _ _ (.check (.malformed _) (.ending (hes _) fun _ => .pure _))
  case sigmaAnd hes | sigmaOr hes =>
    exact accounts_enter _ _ (.check (.malformed _) (.ending (hes _) fun _ => .pure _))
  case collOf hes =>
    exact accounts_enter _ _ (.skip (.chargeItems _) fun _ => (hes _).ending fun _ =>
      (finds_collectItems ..).metered)
  case context f _ => exact accounts_enter _ _ (.of_silent (f.metered_read _))
  case getVar => exact accounts_enter _ _ (.of_silent (.lift _))
  case unary op _ _ he => exact accounts_enter _ _ ((he _).bind fun v => op.accounts_apply v)
  case register he =>
    exact accounts_enter _ _ ((he _).ending fun v => .bind v.finds_asBox.metered fun _ => .lift _)
  case record he => exact accounts_enter _ _ ((he _).ending fun _ => .lift _)
  case arith ha hb | compare ha hb =>
    exact accounts_enter _ _ ((ha _).andThen fun _ => (hb _).ending fun _ => .lift _)
  case and ha hb =>
    exact accounts_enter _ _ ((ha _).bind fun v => .reading v.finds_asBool.metered fun _ =>
      .ite ((hb _).ending fun w => .bind w.finds_asBool.metered fun _ => .pure _)
        (.of_silent (.pure _)))
  case or ha hb =>
    exact accounts_enter _ _ ((ha _).bind fun v => .reading v.finds_asBool.metered fun _ =>
      .ite (.of_silent (.pure _))
        ((hb _).ending fun w => .bind w.finds_asBool.metered fun _ => .pure _))
  case orElse ha hb =>
    refine accounts_enter _ _ ((ha _).bind fun v => .reading v.finds_asOption.metered fun o => ?_)
    cases o with
    | some w => exact .of_silent (.pure w)
    | none => exact hb _
  case atLeast ha hb =>
    exact accounts_enter _ _ ((ha _).andThen fun v => .skip v.finds_asInt.metered fun k =>
      (hb _).bind fun w => .reading w.finds_asColl.metered fun c => accounts_atLeastOf k c)
  case ifThenElse ha hb hc =>
    exact accounts_enter _ _ ((ha _).bind fun v => .reading v.finds_asBool.metered fun _ =>
      .ite (hb _) (hc _))
  case slice ha hb hc =>
    exact accounts_enter _ _ ((ha _).bind fun v => .reading v.finds_asColl.metered fun coll =>
      (hb _).bind fun v => .reading v.finds_asInt.metered fun lower =>
      (hc _).bind fun v => .reading v.finds_asInt.metered fun upper =>
        accounts_sliceColl coll lower upper)
  case byIndex ha hb =>
    exact accounts_enter _ _ ((ha _).andThen fun v => .skip v.finds_asColl.metered fun c =>
      (hb _).ending fun w => .bind w.finds_asInt.metered fun i => by split <;> constructor)
  case byIndexOr ha hb hd =>
    refine accounts_enter _ _ ((ha _).bind fun v => .reading v.finds_asColl.metered fun c =>
      (hb _).bind fun w => .reading w.finds_asInt.metered fun i => ?_)
    cases itemAt? c i with
    | some w => exact .of_silent (.pure w)
    | none => exact hd _
  case loop op _ _ _ _ ha hbody =>
    exact accounts_enter _ _ ((ha _).bind fun v => .reading v.finds_asColl.metered fun c =>
      op.accounts_run hbody _ c)
  case fold ha hzero hbody =>
    exact accounts_enter _ _ ((ha _).bind fun v => .reading v.finds_asColl.metered fun c => by
      rw [Coll.length_toList]
      exact (hzero _).bind fun acc => (Accounts.chargeItems c.size).andThen fun _ =>
        accounts_foldItems (accounts_applyFunction hbody _) acc c.toList)
  case select he => exact accounts_enter _ _ ((he _).ending fun v => (finds_selectItem v _).metered)
  case dhTuple hg hh hu hv =>
    exact accounts_enter _ _ ((hg _).andThen fun v => .skip v.finds_asPoint.metered fun _ =>
      (hh _).andThen fun v => .skip v.finds_asPoint.metered fun _ =>
      (hu _).andThen fun v => .skip v.finds_asPoint.metered fun _ =>
      (hv _).ending fun v => .bind v.finds_asPoint.metered fun _ => .pure _)
  case deserialize => exact accounts_enter _ _ (hscript ..)
  case defsNil | propsNil | allNil => exact .of_silent (.pure _)
  case defsCons he hds => exact he.bind fun v => hds v
  case propsCons he hes =>
    exact he.andThen fun v => .skip v.finds_asProposition.metered fun _ => hes.ending fun _ => .pure _
  case allCons he hes => exact he.andThen fun _ => hes.ending fun _ => .pure _

/-- A script accounts for its effort. -/
theorem Expr.accounts_evalNested (e : Expr) (sc : Scope) :
    Accounts (e.evalNested sc) (e.nestedEffort sc) :=
  Expr.accounts_evalWith (fun _ _ _ => .of_silent (.malformed _)) e sc

theorem accounts_runScript (sc : Scope) (id : UInt8) (t : ValueType) :
    Accounts (runScript sc id t) (scriptEffort sc id t) :=
  .reading (metered_scriptOctets ..) fun _ => .skip (.chargeUnits ..) fun _ =>
    .reading (.lift _) fun e => (e.accounts_evalNested _).ending fun v =>
      .check (.malformed _) (.pure v)

/-! ## Reductions -/

namespace Condition

variable (c : Condition) (ctx : Context)

/-- The evaluation of a condition accounts for its effort. -/
theorem accounts_run : Accounts (c.run ctx) (c.effort ctx) := by
  unfold run effort
  cases c.root? with
  | none => exact .of_silent (.fail _)
  | some e =>
    exact .check (.fail _) ((Expr.accounts_evalWith accounts_runScript e _).ending metered_resultOf)

variable {c ctx}

/-- What a reduction spent covers its effort and the verification of its proposition. -/
theorem spent_of_run {p : Proposition} {m m' : Meter} (hm : m.Within) (hlimit : m.limit < maxCost)
    (h : (c.run ctx).run m = (.ok p, m')) :
    m.spent + (c.effort ctx).cost + p.verificationCost ≤ m'.spent := by
  unfold run at h
  unfold effort
  cases hroot : c.root? with
  | none => rw [hroot] at h; cases h
  | some e =>
    rw [hroot] at h
    dsimp only at h ⊢
    split at h
    · cases h
    · -- the expression covers its effort, and its result is charged on top
      have haccounts := Expr.accounts_evalWith accounts_runScript e (c.scope ctx)
      obtain ⟨v, m₁, heval, hresult⟩ := EvalM.run_bind_eq_ok.1 h
      have hrun : (e.evalWith runScript (c.scope ctx)).run m = (.ok v, m₁) := heval
      obtain ⟨-, hsame, -⟩ := haccounts.metered.run_meter hm
      rw [hrun] at hsame
      have hcovers := (haccounts.covers hm hlimit hrun).2
      have hspent := spent_of_resultOf (hsame ▸ hlimit) hresult
      omega

variable (c ctx)

/-- **The reported cost accounts for every step.**  Under a limit below the largest cost, a reduction
that succeeds has a cost within the limit that covers every node that was evaluated, the price of
every item that was gone through, and the verification of its proposition.  No run, whether it fails
or not, spends more than the limit or enters more nodes than the limit has units.  And what is
charged for a proposition is the sum of its prices, as far as 64 bits go. -/
theorem cost_accounts (limit : UInt64) (hlimit : limit.toNat < maxCost) :
    (∀ r, c.reduce ctx limit = .ok r → r.cost ≤ limit ∧
      (c.effort ctx).nodes + itemCost * (c.effort ctx).items + r.proposition.verificationCost ≤
        r.cost.toNat ∧
      (c.effort ctx).nodes = ((c.run ctx).run (Meter.new limit)).2.entered) ∧
    (((c.run ctx).run (Meter.new limit)).2.spent ≤ limit.toNat ∧
      ((c.run ctx).run (Meter.new limit)).2.entered ≤ limit.toNat) ∧
    ∀ p : Proposition, p.verificationSum < 2 ^ 64 → p.verificationCost = p.verificationSum := by
  have haccounts := c.accounts_run ctx
  have hnew := Meter.within_new limit
  have hzero : (Meter.new limit).spent = 0 := rfl
  have hnone : (Meter.new limit).entered = 0 := rfl
  obtain ⟨-, hsame, hwithin⟩ := haccounts.metered.run_meter hnew
  have hspent : ((c.run ctx).run (Meter.new limit)).2.spent ≤ limit.toNat :=
    Nat.le_trans hwithin.spent_le (Nat.le_of_eq hsame)
  refine ⟨fun r hr => ⟨c.cost_le_of_reduce ctx hr, ?_⟩, ⟨hspent, ?_⟩, fun p =>
    Proposition.verificationCost_eq⟩
  · unfold reduce at hr
    split at hr
    · rename_i p m hrun
      cases hr
      have hcost := spent_of_run hnew hlimit hrun
      have hnodes := (haccounts.covers hnew hlimit hrun).1
      rw [hrun] at hspent ⊢
      -- what was spent stays under the limit, so the reported cost is not cut
      have hfits : (UInt64.ofNat m.spent).toNat = m.spent :=
        UInt64.toNat_ofNat_of_lt' (Nat.lt_of_le_of_lt hspent limit.toNat_lt)
      rw [hzero, Nat.zero_add] at hcost
      rw [hnone, Nat.zero_add] at hnodes
      exact ⟨Nat.le_trans hcost (Nat.le_of_eq hfits.symm), hnodes.symm⟩
    · cases hr
  · have hentered := haccounts.entered_le hnew hlimit
    omega

end Condition

end

/-! ## Two keys behind a script -/

/-- One of two keys. -/
def eitherKey : Proposition := .node .any [.dlog (.zero 32), .dlog (Octets.ofNatLE 32 1)]

/-- A condition that asks for one of two keys when the script in variable 1 holds. -/
def keysBehindScript : Condition :=
  .new (.ternary .ifThenElse (.deserialize 1 .bool) (.const (.sigmaProp eitherKey))
    (.const (.sigmaProp (.trivial false))))

/-- The script filters two items, which takes three nodes for each, and of the two branches one is
evaluated.  With a limit of fifty units the evaluation ends inside the script. -/
theorem Condition.cost_accounts_keysBehindScript :
    keysBehindScript.reduce countingContext 2000 = .ok ⟨eitherKey, 1227⟩ ∧
    keysBehindScript.effort countingContext = ⟨16, 2⟩ ∧
    16 + itemCost * 2 + eitherKey.verificationCost ≤ 1227 ∧
    (((keysBehindScript.run countingContext).run (Meter.new 2000)).2.entered = 16) ∧
    ((keysBehindScript.run countingContext).run (Meter.new 50)).2.entered ≤ 50 ∧
    eitherKey.verificationCost = eitherKey.verificationSum := by
  have hreduce : keysBehindScript.reduce countingContext 2000 = .ok ⟨eitherKey, 1227⟩ := by
    decide +kernel
  have heffort : keysBehindScript.effort countingContext = ⟨16, 2⟩ := by decide +kernel
  obtain ⟨hreported, -, hsum⟩ :=
    cost_accounts keysBehindScript countingContext 2000 (by decide)
  obtain ⟨-, ⟨-, hentered⟩, -⟩ :=
    cost_accounts keysBehindScript countingContext 50 (by decide)
  obtain ⟨-, hcost, hnodes⟩ := hreported _ hreduce
  rw [heffort] at hcost hnodes
  exact ⟨hreduce, heffort, hcost, hnodes.symm, hentered, hsum eitherKey (by decide)⟩

end Covenant

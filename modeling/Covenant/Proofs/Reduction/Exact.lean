/-
  EXACT — what a computation returns when costs do not matter.

  Limits only cut off.  So there is at most one value that a computation can return, under whatever
  limit and after whatever was spent before, and under the largest limit it does return it: totals
  stop at the largest cost, which that limit lets pass.

  1. **`Returns x a`** — some run returns `a`.
  2. **`Exact x Q`** — `Q` holds of what `x` returns and of nothing else.  Unlike a condition that
     results satisfy, it says when there is a result; and it composes along the same lines.
  3. **Nodes** — one lemma for each node that is evaluated in the theory that follows.
  4. **`Condition.reduce_of_exact`** — when the value of a condition is known in this way, so is the
     outcome of its reduction under every sufficient limit.
-/
import Covenant.Proofs.Reduction.Limit
import Mathlib.Data.List.Forall2

namespace Covenant

/-! ## Returning at no cost -/

/-- Some run of the computation returns `a`. -/
def Returns {α : Type} (x : EvalM α) (a : α) : Prop := ∃ m m', x.run m = (.ok a, m')

/-- What some run returns is returned by every run under the largest limit. -/
theorem Metered.run_of_returns {A : Opcode → Prop} {α : Type} {x : EvalM α} (hx : Metered A x)
    {a : α} (h : Returns x a) {m : Meter} (hm : m.limit = maxCost) :
    ∃ m', x.run m = (.ok a, m') ∧ m'.limit = maxCost := by
  obtain ⟨m₀, m₀', hrun⟩ := h
  induction hx generalizing m m₀ m₀' with
  | pure | note | noteValue =>
    cases hrun
    exact ⟨_, rfl, hm⟩
  | fail => cases hrun
  | charge cost =>
    -- costs stop at the largest one, which a meter with that limit never passes
    have hle : ¬m.limit < addCost m.spent cost := by
      rw [hm, addCost]
      omega
    rw [EvalM.run_charge, if_neg hle]
    exact ⟨_, rfl, hm⟩
  | bind _ _ ihx ihf =>
    obtain ⟨b, m₁, hfirst, hrest⟩ := EvalM.run_bind_eq_ok.1 hrun
    obtain ⟨m', hrun', hm'⟩ := ihx hm m₀ m₁ hfirst
    rw [EvalM.run_bind_of_ok hrun']
    exact ihf b hm' m₁ m₀' hrest

/-- A meter with the largest limit. -/
def Meter.unlimited : Meter := Meter.new (-1)

theorem Meter.limit_unlimited : Meter.unlimited.limit = maxCost := by decide

/-! ## Exact results -/

/-- The computation returns the values that satisfy `Q` and no others. -/
structure Exact {α : Type} (x : EvalM α) (Q : α → Prop) : Prop where
  metered : Metered (fun _ => True) x
  returns_iff : ∀ a, Returns x a ↔ Q a

namespace Exact

variable {α β : Type} {x : EvalM α} {f : α → EvalM β} {Q Q' : α → Prop} {R : α → β → Prop}

theorem of_metered (hx : Metered (fun _ => True) x) : Exact x (Returns x) :=
  ⟨hx, fun _ => Iff.rfl⟩

theorem congr (h : Exact x Q) (hQ : ∀ a, Q a ↔ Q' a) : Exact x Q' :=
  ⟨h.metered, fun a => (h.returns_iff a).trans (hQ a)⟩

theorem pure (a : α) : Exact (Pure.pure a) (· = a) := by
  refine ⟨.pure a, fun b => ⟨?_, ?_⟩⟩
  · rintro ⟨m, m', hrun⟩
    cases hrun
    rfl
  · rintro rfl
    exact ⟨Meter.unlimited, _, rfl⟩

theorem fail (e : ReductionError) : Exact (throw e : EvalM α) fun _ => False := by
  refine ⟨.fail e, fun a => ⟨?_, False.elim⟩⟩
  rintro ⟨m, m', hrun⟩
  cases hrun

theorem malformed (d : ConditionDefect) : Exact (EvalM.malformed d : EvalM α) fun _ => False :=
  fail _

theorem failed (f : RuntimeFailure) : Exact (EvalM.failed f : EvalM α) fun _ => False := fail _

/-- Costs do not matter. -/
theorem charge (cost : Nat) : Exact (EvalM.charge cost) fun _ => True := by
  refine ⟨.charge cost, fun u => ⟨fun _ => trivial, fun _ => ⟨Meter.unlimited, ?_⟩⟩⟩
  have hle : ¬Meter.unlimited.limit < addCost Meter.unlimited.spent cost := by
    rw [Meter.limit_unlimited, addCost]
    omega
  rw [EvalM.run_charge, if_neg hle]
  exact ⟨_, rfl⟩

theorem noteValue (v : Value) : Exact (EvalM.noteValue v) fun _ => True :=
  ⟨.noteValue v, fun _ => ⟨fun _ => trivial, fun _ => ⟨Meter.unlimited, _, rfl⟩⟩⟩

theorem note (s : Step) : Exact (EvalM.note s) fun _ => True :=
  ⟨.note s fun _ _ => trivial, fun _ => ⟨fun _ => trivial, fun _ => ⟨Meter.unlimited, _, rfl⟩⟩⟩

/-- In a sequence the second step goes on from what the first returns. -/
theorem bind (hx : Exact x Q) (hf : ∀ a, Exact (f a) (R a)) :
    Exact (x >>= f) fun b => ∃ a, Q a ∧ R a b := by
  refine ⟨.bind hx.metered fun a => (hf a).metered, fun b => ⟨?_, ?_⟩⟩
  · rintro ⟨m, m', hrun⟩
    obtain ⟨a, m₁, hfirst, hrest⟩ := EvalM.run_bind_eq_ok.1 hrun
    exact ⟨a, (hx.returns_iff a).1 ⟨m, m₁, hfirst⟩, ((hf a).returns_iff b).1 ⟨m₁, m', hrest⟩⟩
  · rintro ⟨a, ha, hb⟩
    -- the first step leaves the largest limit in place, under which the second returns as well
    obtain ⟨m₁, hfirst, hlimit⟩ :=
      hx.metered.run_of_returns ((hx.returns_iff a).2 ha) Meter.limit_unlimited
    obtain ⟨m', hrun, -⟩ := (hf a).metered.run_of_returns (((hf a).returns_iff b).2 hb) hlimit
    exact ⟨Meter.unlimited, m', EvalM.run_bind_eq_ok.2 ⟨a, m₁, hfirst, hrun⟩⟩

/-- A step that only spends or writes into the journal. -/
theorem seq {x : EvalM Unit} {y : EvalM α} (hx : Exact x fun _ => True) (hy : Exact y Q) :
    Exact (x >>= fun _ => y) Q :=
  (hx.bind fun _ => hy).congr fun _ => ⟨fun ⟨_, _, h⟩ => h, fun h => ⟨(), trivial, h⟩⟩

theorem chargeItems (n : Nat) : Exact (EvalM.chargeItems n) fun _ => True := (charge _).seq (note _)

theorem lift (r : Except ReductionError α) : Exact (EvalM.lift r) fun a => r = .ok a := by
  cases r with
  | ok a => exact (pure a).congr fun b => ⟨fun h => h ▸ rfl, fun h => (Except.ok.inj h).symm⟩
  | error e => exact (fail e).congr fun b => ⟨False.elim, nofun⟩

/-- A check in front of a computation. -/
theorem check {c : Prop} [Decidable c] {d : ConditionDefect} {y : EvalM α} (hy : Exact y Q) :
    Exact (if c then EvalM.malformed d >>= fun _ : PUnit => y else y) fun a => ¬c ∧ Q a := by
  split
  · rename_i hc
    exact ((malformed d).bind fun _ => hy).congr fun a =>
      ⟨fun ⟨_, h, _⟩ => h.elim, fun h => (h.1 hc).elim⟩
  · rename_i hc
    exact hy.congr fun a => ⟨fun h => ⟨hc, h⟩, And.right⟩

end Exact

/-! ## Values of the right kind -/

/-- A look at a value finds what it looks for, and nothing else. -/
theorem EvalM.Finds.exact {α : Type} {Q : α → Prop} {x : EvalM α} (h : EvalM.Finds Q x) :
    Exact x Q := by
  cases h with
  | found h => exact (Exact.pure _).congr fun b => (h b).symm
  | missing hd h => exact (Exact.malformed _).congr fun a => (iff_false_intro (h a)).symm

namespace Value

variable (v : Value)

theorem exact_asColl : Exact v.asColl fun c => Coll.ofValue? v = some c := by
  refine v.finds_asColl.exact.congr fun c => ⟨?_, Coll.eq_toValue_of_ofValue?⟩
  rintro rfl
  exact c.ofValue?_toValue

/-- The proposition that a value stands for. -/
def proposition? : Value → Option Proposition
  | .sigmaProp p => some p
  | .bool b => some (.trivial b)
  | _ => none

theorem proposition?_eq_some {p : Proposition} : v.proposition? = some p ↔
    v = .sigmaProp p ∨ ∃ b, v = .bool b ∧ p = .trivial b := by
  unfold proposition?
  split <;> simp_all [eq_comm]

theorem exact_asProposition : Exact v.asProposition fun p => v.proposition? = some p :=
  v.finds_asProposition.exact.congr fun _ => v.proposition?_eq_some.symm

end Value

/-! ## Nodes -/

section

variable {sc : Scope} {Q Q₁ Q₂ Q₃ : Value → Prop} (hdepth : sc.depth ≤ maxExprDepth)
include hdepth

theorem exact_enter {op : Opcode} {node : Scope → EvalM Value} (h : Exact (node sc.deeper) Q) :
    Exact (enter sc op node) Q := by
  have hnode : Exact (do let v ← node sc.deeper; EvalM.noteValue v; return v) Q :=
    (h.bind fun v => (Exact.noteValue v).seq (.pure v)).congr fun v => by simp
  exact (Exact.check ((Exact.charge _).seq ((Exact.note _).seq hnode))).congr fun v =>
    ⟨And.right, fun hv => ⟨Nat.not_lt.2 hdepth, hv⟩⟩

variable [Suite] {script : Scope → UInt8 → ValueType → EvalM Value} {a b c : Expr}

theorem Expr.exact_const (v : Value) : Exact ((Expr.const v).evalWith script sc) (· = v) := by
  rw [Expr.evalWith]
  exact exact_enter hdepth (.pure v)

theorem Expr.exact_getVar (i : UInt8) (t : ValueType) :
    Exact ((Expr.getVar i t).evalWith script sc) fun v =>
      readTyped .variableType t (sc.context.extension.get? i) = .ok v := by
  rw [Expr.evalWith]
  exact exact_enter hdepth (.lift _)

theorem Expr.exact_unary {op : UnaryOp} {R : Value → Value → Prop}
    (ha : Exact (a.evalWith script sc.deeper) Q) (hop : ∀ v, Exact (op.apply v) (R v)) :
    Exact ((Expr.unary op a).evalWith script sc) fun w => ∃ v, Q v ∧ R v w := by
  rw [Expr.evalWith]
  exact exact_enter hdepth (ha.bind hop)

/-- Values of one type are compared; others are not. -/
theorem Expr.exact_eq (ha : Exact (a.evalWith script sc.deeper) Q₁)
    (hb : Exact (b.evalWith script sc.deeper) Q₂) :
    Exact ((Expr.binary (.compare .eq) a b).evalWith script sc) fun v =>
      ∃ x, Q₁ x ∧ ∃ y, Q₂ y ∧ x.type = y.type ∧ v = .bool (x == y) := by
  rw [Expr.evalWith]
  refine exact_enter hdepth (ha.bind fun x => hb.bind fun y => (Exact.lift _).congr fun v => ?_)
  simp only [CompareOp.apply, sameValues, ne_eq, ite_not]
  split
  · rename_i htype
    exact ⟨fun h => ⟨htype, (Except.ok.inj h).symm⟩, fun h => h.2 ▸ rfl⟩
  · rename_i htype
    -- values of two types are not compared at all
    refine ⟨fun h => ?_, fun h => (htype h.1).elim⟩
    cases h

theorem Expr.exact_slice (ha : Exact (a.evalWith script sc.deeper) Q₁)
    (hb : Exact (b.evalWith script sc.deeper) Q₂) (hc : Exact (c.evalWith script sc.deeper) Q₃) :
    Exact ((Expr.ternary .slice a b c).evalWith script sc) fun v =>
      ∃ w, Q₁ w ∧ ∃ coll, Coll.ofValue? w = some coll ∧
      ∃ x, Q₂ x ∧ ∃ l, x = .int l ∧ ∃ y, Q₃ y ∧ ∃ u, y = .int u ∧
        v = (coll.slice (min (clamp l coll.size) (clamp u coll.size))
          (clamp u coll.size)).toValue := by
  rw [Expr.evalWith]
  exact exact_enter hdepth (ha.bind fun w => w.exact_asColl.bind fun coll =>
    hb.bind fun x => x.finds_asInt.exact.bind fun l =>
    hc.bind fun y => y.finds_asInt.exact.bind fun u => (Exact.chargeItems _).seq (.pure _))

omit hdepth in
/-- What some expressions give as propositions. -/
theorem Expr.exact_evalPropositions {es : List Expr} {Q : Expr → Value → Prop}
    (h : ∀ e ∈ es, Exact (e.evalWith script sc) (Q e)) :
    Exact (Expr.evalPropositions script es sc) fun ps =>
      List.Forall₂ (fun e p => ∃ v, Q e v ∧ v.proposition? = some p) es ps := by
  induction es with
  | nil =>
    rw [Expr.evalPropositions]
    exact (Exact.pure []).congr fun ps => by simp
  | cons e es ih =>
    obtain ⟨he, hes⟩ := List.forall_mem_cons.1 h
    rw [Expr.evalPropositions]
    refine (he.bind fun v => v.exact_asProposition.bind fun p => (ih hes).bind fun ps =>
      .pure (p :: ps)).congr fun ps => ?_
    rw [List.forall₂_cons_left_iff]
    constructor
    · rintro ⟨v, hv, p, hp, qs, hqs, rfl⟩
      exact ⟨p, qs, ⟨v, hv, hp⟩, hqs, rfl⟩
    · rintro ⟨p, qs, ⟨v, hv, hp⟩, hqs, rfl⟩
      exact ⟨v, hv, p, hp, qs, hqs, rfl⟩

theorem Expr.exact_sigmaAnd {es : List Expr} {Q : Expr → Value → Prop}
    (h : ∀ e ∈ es, Exact (e.evalWith script sc.deeper) (Q e)) :
    Exact ((Expr.variadic .sigmaAnd es).evalWith script sc) fun v => es.length ≤ maxChildren ∧
      ∃ ps, List.Forall₂ (fun e p => ∃ v, Q e v ∧ v.proposition? = some p) es ps ∧
        v = .sigmaProp (.allOf ps) := by
  rw [Expr.evalWith]
  exact (exact_enter hdepth (Exact.check ((exact_evalPropositions h).bind fun ps =>
    .pure _))).congr fun v => and_congr_left fun _ => Nat.not_lt

/-- A conjunction of two: both are evaluated, whatever the first gives. -/
theorem Expr.exact_sigmaAnd_pair (ha : Exact (a.evalWith script sc.deeper) Q₁)
    (hb : Exact (b.evalWith script sc.deeper) Q₂) :
    Exact ((Expr.variadic .sigmaAnd [a, b]).evalWith script sc) fun v =>
      ∃ x, Q₁ x ∧ ∃ p, x.proposition? = some p ∧ ∃ y, Q₂ y ∧ ∃ q, y.proposition? = some q ∧
        v = .sigmaProp (.allOf [p, q]) := by
  -- the general rule gives what the parts return, and that is known for either
  have hchildren : ∀ e ∈ [a, b], Exact (e.evalWith script sc.deeper)
      (Returns (e.evalWith script sc.deeper)) := by
    simp only [List.forall_mem_cons]
    exact ⟨.of_metered ha.metered, .of_metered hb.metered, by simp⟩
  refine (exact_sigmaAnd hdepth hchildren).congr fun v => ?_
  constructor
  · rintro ⟨-, ps, hps, rfl⟩
    obtain ⟨p, _, ⟨x, hx, hp⟩, hrest, rfl⟩ := List.forall₂_cons_left_iff.1 hps
    obtain ⟨q, _, ⟨y, hy, hq⟩, hnil, rfl⟩ := List.forall₂_cons_left_iff.1 hrest
    cases hnil
    exact ⟨x, (ha.returns_iff x).1 hx, p, hp, y, (hb.returns_iff y).1 hy, q, hq, rfl⟩
  · rintro ⟨x, hx, p, hp, y, hy, q, hq, rfl⟩
    exact ⟨by simp [maxChildren], [p, q], .cons ⟨x, (ha.returns_iff x).2 hx, hp⟩
      (.cons ⟨y, (hb.returns_iff y).2 hy, hq⟩ .nil), rfl⟩

theorem Expr.exact_deserialize {i : UInt8} {t : ValueType} (h : Exact (script sc.deeper i t) Q) :
    Exact ((Expr.deserialize i t).evalWith script sc) Q := by
  rw [Expr.evalWith]
  exact exact_enter hdepth h

end

/-! ## Operations -/

namespace UnaryOp

variable [Suite] (v : Value)

theorem exact_optionGet : Exact (optionGet.apply v) fun w => ∃ t, v = .option t (some w) := by
  refine (v.finds_asOption.exact.bind (R := fun o w => o = some w) fun o => ?_).congr
    fun w => by simp
  cases o with
  | some w => exact (Exact.pure w).congr fun w' => by simp [eq_comm]
  | none => exact (Exact.failed _).congr fun w => by simp

theorem exact_blake3 :
    Exact (blake3.apply v) fun w => ∃ b, v = .bytes b ∧ w = .bytes (Blake3.hash b).1 :=
  v.finds_asBytes.exact.bind fun _ => (Exact.charge _).seq (.pure _)

theorem exact_boolToSigma :
    Exact (boolToSigma.apply v) fun w => ∃ b, v = .bool b ∧ w = .sigmaProp (.trivial b) :=
  v.finds_asBool.exact.bind fun _ => .pure _

end UnaryOp

/-! ## Scripts -/

theorem exact_scriptOctets (x : Extension) (i : UInt8) :
    Exact (scriptOctets x i) fun b => x.get? i = some (.bytes b) := by
  unfold scriptOctets
  split
  · rename_i b hb
    exact (Exact.pure b).congr fun b' => by simp [hb, eq_comm]
  · rename_i v hother hv
    exact (Exact.malformed _).congr fun b =>
      ⟨False.elim, fun h => hother b (Option.some.inj (hv.symm.trans h))⟩
  · rename_i hnone
    exact (Exact.failed _).congr fun b => by simp [hnone]

/-- A script is run out of sight of the scope around it. -/
theorem exact_runScript [Suite] (sc : Scope) (i : UInt8) (t : ValueType) :
    Exact (runScript sc i t) fun v =>
      ∃ s, sc.Holds i s ∧ Returns (s.evalNested sc.isolated) v ∧ v.type = t := by
  have hmetered (s : Expr) : Metered (fun _ => True) (s.evalNested sc.isolated) :=
    Expr.metered_evalNested (fun _ _ => trivial) _
  refine ((exact_scriptOctets _ i).bind fun b => (Exact.charge _).seq ((Exact.lift _).bind fun s =>
    (Exact.of_metered (hmetered s)).bind fun v => Exact.check (.pure v))).congr fun v => ?_
  constructor
  · rintro ⟨b, hb, s, hs, _, hv, htype, rfl⟩
    exact ⟨s, ⟨b, hb, hs⟩, hv, not_not.1 htype⟩
  · rintro ⟨s, ⟨b, hb, hs⟩, hv, htype⟩
    exact ⟨b, hb, s, hs, v, hv, not_not.2 htype, rfl⟩

/-! ## Reductions -/

/-- The result of a condition's value: costs do not matter, depth does. -/
theorem exact_resultOf (v : Value) :
    Exact (resultOf v) fun p => v.proposition? = some p ∧ p.depth ≤ maxDepth := by
  -- depth and price of a proposition are seen to after it is known
  have accounted (p : Proposition) : Exact (α := Proposition) (do
      if maxDepth < p.depth then EvalM.malformed .propositionTooDeep
      EvalM.charge p.verificationCost
      return p) fun q => q = p ∧ p.depth ≤ maxDepth :=
    (Exact.check ((Exact.charge _).seq (.pure p))).congr fun q => by simp [and_comm]
  have finished {x : EvalM Proposition} (hx : Exact x fun p => v.proposition? = some p) :
      Exact (x >>= fun p => do
        if maxDepth < p.depth then EvalM.malformed .propositionTooDeep
        EvalM.charge p.verificationCost
        return p) fun p => v.proposition? = some p ∧ p.depth ≤ maxDepth := by
    refine (hx.bind accounted).congr fun p => ⟨?_, fun ⟨hp, hle⟩ => ⟨p, hp, rfl, hle⟩⟩
    rintro ⟨_, hp, rfl, hle⟩
    exact ⟨hp, hle⟩
  simp only [resultOf]
  split
  · exact finished ((Exact.pure _).congr fun p => by simp [Value.proposition?, eq_comm])
  · exact finished ((Exact.pure _).congr fun p => by simp [Value.proposition?, eq_comm])
  · refine finished ((Exact.malformed _).congr fun p => ?_)
    -- any other value is no result
    unfold Value.proposition?
    split <;> simp_all

namespace Condition

variable [Suite] {c : Condition} {ctx : Context} {e : Expr} {Q : Value → Prop}

/-- A condition that is activated comes down to the proposition that its value stands for. -/
theorem exact_run (he : c.root? = some e) (h : Exact (e.eval (c.scope ctx)) Q) :
    Exact (c.run ctx) fun p => c.version ≤ ctx.activatedVersion ∧
      ∃ v, Q v ∧ v.proposition? = some p ∧ p.depth ≤ maxDepth := by
  have hrun := h.bind exact_resultOf
  unfold Condition.run
  rw [he]
  dsimp only
  split
  · rename_i hlt
    -- a version that is not activated fails, and the description excludes it
    exact ((Exact.fail _).bind fun _ : PUnit => hrun).congr fun p =>
      ⟨fun ⟨_, hfalse, _⟩ => hfalse.elim, fun hp => (UInt8.not_le.2 hlt hp.1).elim⟩
  · rename_i hle
    exact hrun.congr fun p => ⟨fun hp => ⟨UInt8.not_lt.1 hle, hp⟩, And.right⟩

/-- **Reductions without a limit in their way** end in what the computation returns. -/
theorem reduce_of_exact {R : Proposition → Prop} (h : Exact (c.run ctx) R) :
    (∀ limit r, c.reduce ctx limit = .ok r → R r.proposition) ∧
    ∀ p, R p → ∃ cost, ∀ limit, cost ≤ limit → c.reduce ctx limit = .ok ⟨p, cost⟩ := by
  constructor
  · intro limit r hr
    obtain ⟨m, hrun, -⟩ := Condition.reduce_eq_ok.1 hr
    exact (h.returns_iff r.proposition).1 ⟨_, m, hrun⟩
  · intro p hp
    -- the cost is that of the run under the largest limit
    obtain ⟨m, hrun, -⟩ :=
      h.metered.run_of_returns ((h.returns_iff p).2 hp) Meter.limit_unlimited
    have hreduce : c.reduce ctx (-1) = .ok ⟨p, UInt64.ofNat m.spent⟩ := by
      rw [Condition.reduce, ← Meter.unlimited, hrun]
    exact ⟨_, fun limit hle => c.reduce_of_cost_le ctx hreduce hle⟩

end Condition

end Covenant

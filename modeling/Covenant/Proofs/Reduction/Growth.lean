/-
  GROWTH — how far values can grow beyond what was charged for them.

  A charge is meant to cover the work of its node, and for all nodes but one it covers the size of
  their values: whatever an operation adds to its operands is below the bound of what the evaluation
  starts from, and each node costs at least one unit.  The exception is the reading of a variable.
  It makes a copy for one unit, however large the copy is, and two copies in a tuple bound to the
  same variable double it.

  1. **`Expr.affords_evalWith`** — an expression pays for its value under every potential; one case
     for each node.
  2. **Two potentials** — the charges together with the copies, and the doublings that the charges
     allow.
  3. **`Condition.size_of_noted`** — so both bound every value of a reduction.
  4. **`Condition.doubling`** — and the second is not far off: four units for each doubling.
-/
import Covenant.Proofs.Reduction.Limit
import Covenant.Proofs.Reduction.Paying
import Covenant.Proofs.Script.Versions

namespace Covenant

variable {M φ : Nat} {Φ : Nat → List Step → Nat}

/-! ## The evaluator -/

/-- Every node costs something. -/
theorem Opcode.cost_pos (op : Opcode) : 0 < op.cost := by
  have hall : ∀ op ∈ all, 0 < op.cost := by decide
  exact hall op (List.mem_of_find?_eq_some (ofCode?_code op))

section

variable (hΦ : Potential M Φ)
include hΦ

/-- **A node pays for its value** when it adds no more than `M` to what it has from its operands. -/
theorem affords_enter {sc : Scope} (hsc : sc.Below M φ) (op : Opcode) {node : Scope → EvalM Value}
    (hnode : ∀ sc', sc'.Below M (φ + M) → Affords Φ (φ + M) (node sc') (Atop φ)) :
    Affords Φ φ (enter sc op node) (Atop φ) := by
  refine .check fun _ => .bind (.charge hΦ 1 fun _ => op.cost_pos) fun _ φ₁ h₁ =>
    .bind (.note hΦ (by simp)) fun _ φ₂ h₂ => ?_
  have hle : φ + M ≤ φ₂ := by omega
  refine .bind ((hnode _ (hsc.deeper.mono (Nat.le_add_right φ M))).mono hle) fun v φ₃ h₃ => ?_
  exact .bind (.noteValue hΦ (by omega)) fun _ φ₄ h₄ => .pure (by omega)

/-- A copy costs the same whatever is copied: it is the potential that covers it, not the charge. -/
theorem affords_copy {v : Value} (hv : v.size ≤ φ) :
    Affords Φ φ (do
      EvalM.charge Opcode.use.cost
      EvalM.note (.node .use)
      let v ← pure v
      EvalM.noteValue v
      return v) (Atop φ) := by
  -- the copy is covered by the two steps together, so they are not taken one by one
  intro m hm hφ
  rw [EvalM.run_charge_bind]
  split
  · exact ⟨hm, by simp⟩
  · have hbefore (hlt : addCost m.spent Opcode.use.cost < maxCost) :
        addCost m.spent Opcode.use.cost = m.spent + Opcode.use.cost ∧ φ ≤ Φ m.spent m.journal := by
      have hexact := addCost_of_lt hlt
      exact ⟨hexact, hφ (by omega)⟩
    let paid : Meter := { m with spent := addCost m.spent Opcode.use.cost }
    have hentered : (paid.note (.node .use)).Covered Φ := Meter.Covered.note hm (by simp)
    refine ⟨hentered.note ?_, ?_⟩
    · rintro _ _ ⟨⟩ hlt
      obtain ⟨hexact, hle⟩ := hbefore hlt
      have hcharge := hΦ.charge m.spent m.journal Opcode.use.cost
      have hnote := hΦ.note (m.spent + Opcode.use.cost) m.journal (.node .use)
      rw [hexact]
      exact Nat.le_trans (Nat.le_trans hv hle) (Nat.le_trans (Nat.le_of_add_right_le hcharge) hnote)
    · rintro _ ⟨⟩
      refine ⟨v.size + φ, Nat.le_refl _, fun hlt => ?_⟩
      obtain ⟨hexact, hle⟩ := hbefore hlt
      have huse := hΦ.use m.spent m.journal v (Nat.le_trans hv hle)
      simp only [hexact]
      exact Nat.le_trans (Nat.add_le_add_left hle v.size) huse

/-- The value of a variable. -/
theorem affords_use {sc : Scope} (hsc : sc.Below M φ) (id : UInt32) :
    Affords Φ φ (enter sc .use fun sc =>
      match sc.bindings.lookup id with
      | some v => pure v
      | none => EvalM.malformed .unboundVariable) (Atop φ) := by
  simp only [enter, Scope.deeper]
  refine .check fun _ => ?_
  split
  · rename_i v hlookup
    exact affords_copy hΦ (hsc.bindings _ (mem_of_lookup hlookup))
  · exact .bind (.spend hΦ _) fun _ φ₁ h₁ => .bind (.note hΦ (by simp)) fun _ φ₂ h₂ =>
      .failThen _ _

variable [Suite]

/-- What scripts that variables hold must pay for. -/
def PaysForScripts (M : Nat) (Φ : Nat → List Step → Nat)
    (script : Scope → UInt8 → ValueType → EvalM Value) : Prop :=
  ∀ i t, PaysFor M Φ fun sc => script sc i t

/-- **Every expression pays for its value**, given that scripts read from variables do. -/
theorem Expr.affords_evalWith {script : Scope → UInt8 → ValueType → EvalM Value}
    (hscript : PaysForScripts M Φ script) (e : Expr) (sc : Scope) (φ : Nat) :
    ConstantsBelow M e.nodes → sc.Below M φ → Affords Φ φ (e.evalWith script sc) (Atop φ) := by
  -- one case for each node, for each of the three kinds of lists, and for their ends
  refine (Expr.evalWith.mutual_induct
    (motive_1 := fun e sc => ∀ φ, ConstantsBelow M e.nodes → sc.Below M φ →
      Affords Φ φ (e.evalWith script sc) (Atop φ))
    (motive_2 := fun es sc => ∀ φ, ConstantsBelow M (nodesAll es) → sc.Below M φ →
      Affords Φ φ (Expr.evalPropositions script es sc) fun ps φ' =>
        Proposition.sizeAll ps + φ ≤ φ')
    (motive_3 := fun es sc => ∀ φ, ConstantsBelow M (nodesAll es) → sc.Below M φ →
      Affords Φ φ (Expr.evalAll script es sc) fun vs φ' => Value.sizeAll vs + φ ≤ φ')
    (motive_4 := fun ds sc => ∀ φ, ConstantsBelow M (nodesDefs ds) → sc.Below M φ →
      Affords Φ φ (Expr.evalDefs script ds sc) fun sc' φ' => φ ≤ φ' ∧ sc'.Below M φ')
    ?const ?placeholder ?use ?block ?tuple ?sigmaAnd ?sigmaOr ?collOf ?context ?getVar ?unary
    ?register ?record ?arith ?compare ?and ?or ?orElse ?atLeast ?ifThenElse ?slice ?byIndex
    ?byIndexOr ?loop ?fold ?select ?dhTuple ?deserialize ?defsNil ?defsCons ?propsNil ?propsCons
    ?allNil ?allCons).1 e sc φ
  all_goals
    have hM := hΦ.two_le
    intros
    simp only [Expr.evalWith, Expr.evalPropositions, Expr.evalAll, Expr.evalDefs]
  case const v _ φ h hsc =>
    have hv := h v (List.mem_singleton.2 rfl)
    exact affords_enter hΦ hsc _ fun _ _ => .pure (by omega)
  case placeholder φ _ hsc =>
    refine affords_enter hΦ hsc _ fun sc hsc => ?_
    split
    · have hv := hsc.constants _ (List.mem_of_getElem? ‹_›)
      exact .pure (by omega)
    · exact .malformed _
  case use φ _ hsc => exact affords_use hΦ hsc _
  case block hds he φ h hsc =>
    obtain ⟨hd, hbody⟩ := h.tail.append
    refine affords_enter hΦ hsc _ fun sc hsc => .bind (hds sc _ hd hsc) fun sc' φ₁ h₁ => ?_
    exact (he sc' _ hbody h₁.2).imp fun v φ₂ h₂ => by omega
  case tuple hes φ h hsc =>
    refine affords_enter hΦ hsc _ fun sc hsc => .check fun _ => .bind (hes sc _ h.tail hsc)
      fun vs φ₁ h₁ => .pure ?_
    rw [Atop, Value.size]
    omega
  case sigmaAnd hes φ h hsc =>
    refine affords_enter hΦ hsc _ fun sc hsc => .check fun _ => .bind (hes sc _ h.tail hsc)
      fun ps φ₁ h₁ => .pure ?_
    have hle := Proposition.size_allOf_le ps
    rw [Atop, Value.size, Atom.size]
    omega
  case sigmaOr hes φ h hsc =>
    refine affords_enter hΦ hsc _ fun sc hsc => .check fun _ => .bind (hes sc _ h.tail hsc)
      fun ps φ₁ h₁ => .pure ?_
    have hle := Proposition.size_anyOf_le ps
    rw [Atop, Value.size, Atom.size]
    omega
  case collOf hes φ h hsc =>
    exact affords_enter hΦ hsc _ fun sc hsc => .bind (.chargeItems hΦ _) fun _ φ₁ h₁ =>
      .bind (hes sc _ h.tail (hsc.mono (by omega))) fun vs φ₂ h₂ =>
        affords_collectItems _ (by omega)
  case context f _ φ _ hsc =>
    exact affords_enter hΦ hsc _ fun _ hsc => f.affords_read hΦ (Nat.le_refl _) hsc.context
  case getVar φ _ hsc =>
    refine affords_enter hΦ hsc _ fun sc hsc => .lift fun v hv => ?_
    have hle := size_readTyped_le
      (fun w hw => Nat.le_sub_one_of_lt (hsc.context.variable w hw)) hv
    rw [Atop]
    omega
  case unary op _ _ he φ h hsc =>
    exact affords_enter hΦ hsc _ fun sc hsc => .bind (he sc _ h.tail hsc) fun v φ₁ h₁ =>
      op.affords_apply hΦ h₁
  case register he φ h hsc =>
    refine affords_enter hΦ hsc _ fun sc hsc => .bind (he sc _ h.tail hsc) fun v φ₁ h₁ =>
      .bind v.finds_asBox.affords fun b φ₂ h₂ => .lift fun w hw => ?_
    obtain ⟨rfl, h₂⟩ := h₂
    have hle := size_readTyped_le Box.size_register_le hw
    rw [Atop, Value.size] at h₁
    omega
  case record f _ _ he φ h hsc =>
    exact affords_enter hΦ hsc _ fun sc hsc => .bind (he sc _ h.tail hsc) fun v φ₁ h₁ =>
      .lift fun w hw => atop_of_le_flatSize hΦ (by omega) (RecordField.reading_of_read hw).size_le
  case arith ha hb φ h hsc =>
    obtain ⟨h, h'⟩ := h.tail.append
    exact affords_enter hΦ hsc _ fun sc hsc => .bind (ha sc _ h hsc) fun x φ₁ h₁ =>
      .bind (hb sc _ h' (hsc.mono (by omega))) fun y φ₂ h₂ => .lift fun w hw =>
        atop_of_le_flatSize hΦ (by omega) (computed_arith hw).size_le
  case compare ha hb φ h hsc =>
    obtain ⟨h, h'⟩ := h.tail.append
    exact affords_enter hΦ hsc _ fun sc hsc => .bind (ha sc _ h hsc) fun x φ₁ h₁ =>
      .bind (hb sc _ h' (hsc.mono (by omega))) fun y φ₂ h₂ => .lift fun w hw =>
        atop_of_le_flatSize hΦ (by omega) (computed_compare hw).size_le
  case and ha hb φ h hsc =>
    obtain ⟨h, h'⟩ := h.tail.append
    refine affords_enter hΦ hsc _ fun sc hsc => .bind (ha sc _ h hsc) fun v φ₁ h₁ =>
      .bind v.finds_asBool.affords fun _ φ₂ h₂ => .ite ?_ ?_
    · exact .bind (hb sc _ h' (hsc.mono (by omega))) fun w φ₃ h₃ =>
        .bind w.finds_asBool.affords fun _ φ₄ h₄ => .pure
          (atop_of_le_flatSize hΦ (by omega) (size_le_flatSize rfl))
    · exact .pure (atop_of_le_flatSize hΦ (by omega) (size_le_flatSize rfl))
  case or ha hb φ h hsc =>
    obtain ⟨h, h'⟩ := h.tail.append
    refine affords_enter hΦ hsc _ fun sc hsc => .bind (ha sc _ h hsc) fun v φ₁ h₁ =>
      .bind v.finds_asBool.affords fun _ φ₂ h₂ => .ite ?_ ?_
    · exact .pure (atop_of_le_flatSize hΦ (by omega) (size_le_flatSize rfl))
    · exact .bind (hb sc _ h' (hsc.mono (by omega))) fun w φ₃ h₃ =>
        .bind w.finds_asBool.affords fun _ φ₄ h₄ => .pure
          (atop_of_le_flatSize hΦ (by omega) (size_le_flatSize rfl))
  case orElse ha hb φ h hsc =>
    obtain ⟨h, h'⟩ := h.tail.append
    refine affords_enter hΦ hsc _ fun sc hsc => .bind (ha sc _ h hsc) fun v φ₁ h₁ =>
      .bind v.affords_asOption fun o φ₂ h₂ => ?_
    split
    · rename_i w
      have hw := h₂.1 w rfl
      exact .pure (by omega)
    · exact (hb sc _ h' (hsc.mono (by omega))).imp fun w φ₃ h₃ => by omega
  case atLeast ha hb φ h hsc =>
    obtain ⟨h, h'⟩ := h.tail.append
    refine affords_enter hΦ hsc _ fun sc hsc => .bind (ha sc _ h hsc) fun v φ₁ h₁ =>
      .bind v.finds_asInt.affords fun k φ₂ h₂ => .bind (hb sc _ h' (hsc.mono (by omega)))
      fun w φ₃ h₃ => .bind w.finds_asColl.affords fun c φ₄ h₄ => affords_atLeastOf hΦ k ?_
    obtain ⟨rfl, h₄⟩ := h₄
    omega
  case ifThenElse ha hb hc φ h hsc =>
    obtain ⟨h, h''⟩ := h.tail.append
    obtain ⟨h, h'⟩ := h.append
    refine affords_enter hΦ hsc _ fun sc hsc => .bind (ha sc _ h hsc) fun v φ₁ h₁ =>
      .bind v.finds_asBool.affords fun _ φ₂ h₂ => .ite ?_ ?_
    · exact (hb sc _ h' (hsc.mono (by omega))).imp fun w φ₃ h₃ => by omega
    · exact (hc sc _ h'' (hsc.mono (by omega))).imp fun w φ₃ h₃ => by omega
  case slice ha hb hc φ h hsc =>
    obtain ⟨h, h''⟩ := h.tail.append
    obtain ⟨h, h'⟩ := h.append
    refine affords_enter hΦ hsc _ fun sc hsc => .bind (ha sc _ h hsc) fun v φ₁ h₁ =>
      .bind v.finds_asColl.affords fun c φ₂ h₂ => .bind (hb sc _ h' (hsc.mono (by omega)))
      fun w φ₃ h₃ => .bind w.finds_asInt.affords fun l φ₄ h₄ =>
      .bind (hc sc _ h'' (hsc.mono (by omega))) fun w' φ₅ h₅ => .bind w'.finds_asInt.affords
      fun u φ₆ h₆ => affords_sliceColl hΦ ?_ l u
    obtain ⟨rfl, h₂⟩ := h₂
    omega
  case byIndex ha hb φ h hsc =>
    obtain ⟨h, h'⟩ := h.tail.append
    refine affords_enter hΦ hsc _ fun sc hsc => .bind (ha sc _ h hsc) fun v φ₁ h₁ =>
      .bind v.finds_asColl.affords fun c φ₂ h₂ => .bind (hb sc _ h' (hsc.mono (by omega)))
      fun w φ₃ h₃ => .bind w.finds_asInt.affords fun i φ₄ h₄ => ?_
    split
    · have hitem := size_itemAt?_lt _ ‹_›
      obtain ⟨rfl, h₂⟩ := h₂
      exact .pure (by omega)
    · exact .failed _
  case byIndexOr ha hb hd φ h hsc =>
    obtain ⟨h, h''⟩ := h.tail.append
    obtain ⟨h, h'⟩ := h.append
    refine affords_enter hΦ hsc _ fun sc hsc => .bind (ha sc _ h hsc) fun v φ₁ h₁ =>
      .bind v.finds_asColl.affords fun c φ₂ h₂ => .bind (hb sc _ h' (hsc.mono (by omega)))
      fun w φ₃ h₃ => .bind w.finds_asInt.affords fun i φ₄ h₄ => ?_
    split
    · have hitem := size_itemAt?_lt _ ‹_›
      obtain ⟨rfl, h₂⟩ := h₂
      exact .pure (by omega)
    · exact (hd sc _ h'' (hsc.mono (by omega))).imp fun w φ₅ h₅ => by omega
  case loop op _ _ _ _ ha hbody φ h hsc =>
    obtain ⟨h, h'⟩ := h.tail.append
    refine affords_enter hΦ hsc _ fun sc hsc => .bind (ha sc _ h hsc) fun v φ₁ h₁ =>
      .bind v.finds_asColl.affords fun c φ₂ h₂ => ?_
    obtain ⟨rfl, h₂⟩ := h₂
    exact op.affords_run hΦ (fun sc φ => hbody sc φ h') (hsc.mono (by omega)) (by omega)
  case fold ha hzero hbody φ h hsc =>
    obtain ⟨h, h''⟩ := h.tail.append
    obtain ⟨h, h'⟩ := h.append
    refine affords_enter hΦ hsc _ fun sc hsc => .bind (ha sc _ h hsc) fun v φ₁ h₁ =>
      .bind v.finds_asColl.affords fun c φ₂ h₂ => .bind (hzero sc _ h' (hsc.mono (by omega)))
      fun acc φ₃ h₃ => .bind (.chargeItems hΦ _) fun _ φ₄ h₄ => ?_
    obtain ⟨rfl, h₂⟩ := h₂
    -- the collection stays covered while the function runs
    have hitems : ∀ w ∈ c.toList, 1 + w.size ≤ φ₂ := by
      intro w hw
      have hlt := Coll.size_lt_of_mem hw
      omega
    exact (affords_foldItems hΦ (fun sc φ => hbody sc φ h'') (hsc.mono (by omega)) (by omega)
      hitems).imp fun w φ₅ h₅ => by omega
  case select he φ h hsc =>
    exact affords_enter hΦ hsc _ fun sc hsc => .bind (he sc _ h.tail hsc) fun v φ₁ h₁ =>
      affords_selectItem (by omega) _
  case dhTuple hg hh hu hv φ h hsc =>
    obtain ⟨h, h₄⟩ := h.tail.append
    obtain ⟨h, h₃⟩ := h.append
    obtain ⟨h₁, h₂⟩ := h.append
    exact affords_enter hΦ hsc _ fun sc hsc =>
      .bind (hg sc _ h₁ hsc) fun v φ₁ k₁ => .bind v.finds_asPoint.affords fun y₁ φ₂ k₂ =>
      .bind (hh sc _ h₂ (hsc.mono (by omega))) fun v φ₃ k₃ => .bind v.finds_asPoint.affords
        fun y₂ φ₄ k₄ =>
      .bind (hu sc _ h₃ (hsc.mono (by omega))) fun v φ₅ k₅ => .bind v.finds_asPoint.affords
        fun y₃ φ₆ k₆ =>
      .bind (hv sc _ h₄ (hsc.mono (by omega))) fun v φ₇ k₇ => .bind v.finds_asPoint.affords
        fun y₄ φ₈ k₈ => .pure
      (atop_of_le_flatSize (v := .sigmaProp (.dhTuple y₁ y₂ y₃ y₄)) hΦ (by omega)
        (show 2 ≤ flatSize by decide))
  case deserialize φ _ hsc =>
    exact affords_enter hΦ hsc _ fun sc hsc => (hscript _ _ sc _ hsc).imp fun v φ₁ h₁ => by omega
  case defsNil φ _ hsc => exact .pure ⟨Nat.le_refl φ, hsc⟩
  case defsCons he hds φ h hsc =>
    obtain ⟨h, h'⟩ := h.append
    exact .bind (he φ h hsc) fun v φ₁ h₁ =>
      (hds v φ₁ h' ((hsc.mono (by omega)).bind _ (by omega))).imp fun sc' φ₂ h₂ =>
        ⟨by omega, h₂.2⟩
  case propsNil φ _ _ => exact .pure (Nat.le_of_eq (Nat.zero_add φ))
  case propsCons he hes φ h hsc =>
    obtain ⟨h, h'⟩ := h.append
    refine .bind (he φ h hsc) fun v φ₁ h₁ => .bind v.affords_asProposition fun p φ₂ h₂ =>
      .bind (hes φ₂ h' (hsc.mono (by omega))) fun ps φ₃ h₃ => .pure ?_
    rw [Proposition.sizeAll]
    omega
  case allNil φ _ _ => exact .pure (Nat.le_of_eq (Nat.zero_add φ))
  case allCons he hes φ h hsc =>
    obtain ⟨h, h'⟩ := h.append
    refine .bind (he φ h hsc) fun v φ₁ h₁ => .bind (hes φ₁ h' (hsc.mono (by omega)))
      fun vs φ₂ h₂ => .pure ?_
    rw [Value.sizeAll]
    omega

/-- A script starts from the context and from its own constants. -/
theorem affords_runScript {sc : Scope} (hctx : sc.context.Below M) {i : UInt8}
    (hscript : ∀ s, sc.Holds i s → ConstantsBelow M s.nodes) (t : ValueType) :
    Affords Φ φ (runScript sc i t) (Atop φ) := by
  have hoctets : Affords Φ φ (scriptOctets sc.context.extension i) fun b φ' =>
      sc.context.extension.get? i = some (.bytes b) ∧ φ ≤ φ' := by
    unfold scriptOctets
    split
    · exact .pure ⟨‹_›, Nat.le_refl φ⟩
    · exact .malformed _
    · exact .failed _
  -- a script's constants are bounded like the condition's, and scripts inside it are refused
  refine .bind hoctets fun b φ₁ h₁ => .bind (.spend hΦ _) fun _ φ₂ h₂ =>
    .liftThen fun s hs => ?_
  refine .bind (Expr.affords_evalWith hΦ (fun _ _ _ _ _ => .malformed _) s _ φ₂
    (hscript s ⟨b, h₁.1, hs⟩) hctx.isolated) fun v φ₃ h₃ => ?_
  exact .check fun _ => .pure (by omega)

omit [Suite] in
/-- What a condition comes down to asks for nothing more than a charge. -/
theorem affords_resultOf (v : Value) : Affords Φ φ (resultOf v) fun _ _ => True := by
  have accounted (p : Proposition) (φ : Nat) : Affords Φ φ (do
      if maxDepth < p.depth then EvalM.malformed .propositionTooDeep
      EvalM.charge p.verificationCost
      return p) fun _ _ => True :=
    .check fun _ => .bind (.spend hΦ _) fun _ _ _ => .pure trivial
  simp only [resultOf]
  split
  · exact .bind (.pure trivial) fun p φ₁ (_ : True) => accounted p φ₁
  · exact .bind (.pure trivial) fun p φ₁ (_ : True) => accounted p φ₁
  · exact .bind (.malformed _) fun p φ₁ (_ : True) => accounted p φ₁

end

/-! ## Two potentials -/

/-- The sizes of all copies of variables in a journal. -/
def copied : List Step → Nat
  | .value v _ :: .node .use :: earlier => v.size + copied earlier
  | _ :: earlier => copied earlier
  | [] => 0

theorem copied_le_cons (step : Step) (journal : List Step) :
    copied journal ≤ copied (step :: journal) := by
  rw [copied.eq_def (step :: journal)]
  split
  · rename_i v spent earlier heq
    cases heq
    exact Nat.le_add_left (copied earlier) v.size
  · rename_i heq
    cases heq
    exact Nat.le_refl _
  · contradiction

/-- Where no variable is read, nothing is copied. -/
theorem copied_eq_zero {journal : List Step} (h : .node .use ∉ journal) : copied journal = 0 := by
  fun_induction copied journal with
  | case1 v spent earlier => exact absurd (List.mem_cons_of_mem _ List.mem_cons_self) h
  | case2 step earlier _ ih => exact ih fun hmem => h (List.mem_cons_of_mem step hmem)
  | case3 => rfl

/-- The charges together with the copies. -/
theorem potential_copied (h : flatSize < M) :
    Potential M fun spent journal => M * spent + copied journal where
  flatSize_lt := h
  charge spent journal cost := by
    rw [Nat.mul_add]
    omega
  note spent journal step := Nat.add_le_add_left (copied_le_cons step journal) _
  use spent journal v hv := by
    have hcost := Nat.mul_le_mul_left M (Nat.le_add_right spent Opcode.use.cost)
    rw [copied]
    omega

/-- The doublings that the charges allow. -/
theorem potential_doubled (h : flatSize < M) : Potential M fun spent _ => M * 2 ^ spent where
  flatSize_lt := h
  charge spent _ cost := by
    -- the doublings of so many units are at least as many as the units
    have hpow : 2 ^ spent + cost ≤ 2 ^ (spent + cost) := calc
      2 ^ spent + cost ≤ 2 ^ spent + 2 ^ spent * cost :=
        Nat.add_le_add_left (Nat.le_mul_of_pos_left cost Nat.one_le_two_pow) _
      _ = 2 ^ spent * (cost + 1) := by rw [Nat.mul_succ, Nat.add_comm]
      _ ≤ 2 ^ spent * 2 ^ cost := Nat.mul_le_mul_left _ Nat.lt_two_pow_self
      _ = 2 ^ (spent + cost) := (Nat.pow_add ..).symm
    rw [← Nat.mul_add]
    exact Nat.mul_le_mul_left M hpow
  note _ _ _ := Nat.le_refl _
  use spent _ v hv := by
    have hcost : Opcode.use.cost = 1 := rfl
    rw [hcost, Nat.pow_succ, ← Nat.mul_assoc]
    omega

/-! ## Doubling -/

/-- A value that was doubled so many times. -/
def doubled : Nat → Value
  | 0 => .bool true
  | n + 1 => .pair (doubled n) (doubled n)

theorem size_doubled (n : Nat) : (doubled n).size + 1 = 2 ^ (n + 1) := by
  induction n with
  | zero => rfl
  | succ n ih =>
    rw [doubled, Value.size_pair, Nat.pow_succ]
    omega

/-- A pair of a variable's value with itself. -/
def twice : Expr := .variadic .tuple [.use 0, .use 0]

/-- Binds a variable, doubles its value so many times, and holds. -/
def doublings (n : Nat) : Expr :=
  .block ((0, .const (.bool true)) :: List.replicate n (0, twice)) (.const (.bool true))

/-- A condition that does so. -/
def Condition.doubling (n : Nat) : Condition := .new (doublings n)

/-- A boolean costs nothing to verify. -/
theorem run_resultOf_bool {m : Meter} (hm : m.Within) (b : Bool) :
    (resultOf (.bool b)).run m = (.ok (.trivial b), m) := by
  have hexact : addCost m.spent 0 = m.spent := by
    have hspent := hm.spent_le
    have hlimit := hm.limit_le
    unfold addCost
    omega
  have hfree : (Proposition.trivial b).verificationCost = 0 := rfl
  simp only [resultOf, EvalM.run_bind, EvalM.run_pure]
  rw [if_neg (by cases b <;> decide), EvalM.run_charge_bind]
  rw [hfree, hexact, if_neg (Nat.not_lt.2 hm.spent_le)]
  rfl

section

variable (sc : Scope) (m : Meter) (hlimit : m.limit ≤ maxCost)
include hlimit

/-- Within the limit, a node runs on from its price and notes its value. -/
theorem run_enter (op : Opcode) {node : Scope → EvalM Value} {v : Value} (m' : Meter)
    (hdepth : sc.depth ≤ maxExprDepth) (hroom : m.spent + op.cost ≤ m.limit)
    (hnode : (node sc.deeper).run ⟨m.spent + op.cost, m.limit, .node op :: m.journal⟩ =
      (.ok v, m')) : (enter sc op node).run m = (.ok v, m'.note (.value v m'.spent)) := by
  have hexact : addCost m.spent op.cost = m.spent + op.cost := by
    unfold addCost
    omega
  have hpaid : m.add op.cost = .ok ⟨m.spent + op.cost, m.limit, m.journal⟩ := by
    rw [Meter.add, hexact, if_neg (Nat.not_lt.2 hroom)]
  rw [run_enter_eq hdepth, hpaid]
  simp only [Meter.note, hnode]

variable [Suite] (script : Scope → UInt8 → ValueType → EvalM Value)

theorem run_const (hdepth : sc.depth ≤ maxExprDepth) (hroom : m.spent + 1 ≤ m.limit) (v : Value) :
    ((Expr.const v).evalWith script sc).run m = (.ok v, ⟨m.spent + 1, m.limit,
      .value v (m.spent + 1) :: .node .const :: m.journal⟩) := by
  rw [Expr.evalWith]
  exact run_enter sc m hlimit .const ⟨m.spent + 1, m.limit, .node .const :: m.journal⟩ hdepth hroom
    rfl

theorem run_use (hdepth : sc.depth ≤ maxExprDepth) (hroom : m.spent + 1 ≤ m.limit) {id : UInt32}
    {v : Value} (hv : sc.bindings.lookup id = some v) : ∃ journal,
      ((Expr.use id).evalWith script sc).run m = (.ok v, ⟨m.spent + 1, m.limit, journal⟩) := by
  rw [Expr.evalWith]
  refine ⟨_, run_enter sc m hlimit .use ⟨m.spent + 1, m.limit, .node .use :: m.journal⟩ hdepth hroom
    ?_⟩
  simp only [Scope.deeper, hv]
  rfl

/-- Four units double a value: two for the pair and one for each copy. -/
theorem run_twice (hdepth : sc.depth < maxExprDepth) (hroom : m.spent + 4 ≤ m.limit) {v : Value}
    (hv : sc.bindings.lookup 0 = some v) : ∃ earlier, (twice.evalWith script sc).run m =
      (.ok (.pair v v), ⟨m.spent + 4, m.limit, .value (.pair v v) (m.spent + 4) :: earlier⟩) := by
  -- the pair is paid for before its operands are evaluated
  let entered : Meter := ⟨m.spent + 2, m.limit, .node (.variadic .tuple) :: m.journal⟩
  obtain ⟨journal, hfirst⟩ := run_use sc.deeper entered hlimit script hdepth
    (show m.spent + 3 ≤ m.limit by omega) hv
  obtain ⟨journal', hsecond⟩ := run_use sc.deeper ⟨m.spent + 3, m.limit, journal⟩ hlimit script
    hdepth hroom hv
  have hboth : (Expr.evalAll script [.use 0, .use 0] sc.deeper).run entered =
      (.ok [v, v], ⟨m.spent + 4, m.limit, journal'⟩) :=
    (EvalM.run_bind_of_ok hfirst).trans
      (EvalM.run_bind_of_ok ((EvalM.run_bind_of_ok hsecond).trans rfl))
  rw [twice, Expr.evalWith]
  refine ⟨journal', run_enter sc m hlimit (.variadic .tuple) ⟨m.spent + 4, m.limit, journal'⟩
    (Nat.le_of_lt hdepth) (show m.spent + 2 ≤ m.limit by omega) ?_⟩
  rw [if_neg (by decide)]
  exact EvalM.run_bind_of_ok hboth

end

section

variable [Suite]

/-- Doubling a value that was just noted, so many times. -/
theorem run_replicate_twice (script : Scope → UInt8 → ValueType → EvalM Value) (n : Nat)
    (sc : Scope) (k spent : Nat) {limit : Nat} (earlier : List Step)
    (hdepth : sc.depth < maxExprDepth) (hroom : spent + 4 * n ≤ limit) (hlimit : limit ≤ maxCost)
    (hv : sc.bindings.lookup 0 = some (doubled k)) :
    ∃ sc' earlier', sc'.depth = sc.depth ∧ (Expr.evalDefs script (List.replicate n (0, twice))
      sc).run ⟨spent, limit, .value (doubled k) spent :: earlier⟩ = (.ok sc',
        ⟨spent + 4 * n, limit, .value (doubled (k + n)) (spent + 4 * n) :: earlier'⟩) := by
  induction n generalizing sc k spent earlier with
  | zero => exact ⟨sc, earlier, rfl, by rw [List.replicate_zero, Expr.evalDefs]; rfl⟩
  | succ n ih =>
    have hspent : spent + 4 * (n + 1) = spent + 4 + 4 * n := by omega
    have hcount : k + (n + 1) = k + 1 + n := by omega
    -- one definition binds the pair of the value with itself, for four units
    obtain ⟨journal, htwice⟩ := run_twice sc ⟨spent, limit, .value (doubled k) spent :: earlier⟩
      hlimit script hdepth (show spent + 4 ≤ limit by omega) hv
    obtain ⟨sc', earlier', hsc', hrest⟩ := ih (sc.bind 0 (doubled (k + 1))) (k + 1) (spent + 4)
      journal hdepth (by omega) rfl
    refine ⟨sc', earlier', hsc', ?_⟩
    rw [List.replicate_succ, Expr.evalDefs, EvalM.run_bind_of_ok htwice, hspent, hcount]
    exact hrest

/-- **Four units for each doubling**, and four for the rest. -/
theorem run_doublings (script : Scope → UInt8 → ValueType → EvalM Value) (n : Nat) (sc : Scope)
    {limit : Nat} (hdepth : sc.depth + 1 < maxExprDepth) (hroom : 4 * n + 4 ≤ limit)
    (hlimit : limit ≤ maxCost) : ∃ m earlier, m.spent = 4 * n + 4 ∧ m.Within ∧
      ((doublings n).evalWith script sc).run ⟨0, limit, []⟩ = (.ok (.bool true), m) ∧
      .value (doubled n) (4 * n + 3) :: earlier <:+ m.journal := by
  -- the meter after the block, after its definitions and after its result
  let entered : Meter := ⟨2, limit, [.node .block]⟩
  have hfirst := run_const sc.deeper entered hlimit script (Nat.le_of_lt hdepth)
    (show 3 ≤ limit by omega) (.bool true)
  obtain ⟨sc', earlier, hsc', hdoubled⟩ := run_replicate_twice script n
    (sc.deeper.bind 0 (.bool true)) 0 3 [.node .const, .node .block] hdepth
    (show 3 + 4 * n ≤ limit by omega) hlimit rfl
  rw [Nat.zero_add, Nat.add_comm 3] at hdoubled
  let built : Meter := ⟨4 * n + 3, limit, .value (doubled n) (4 * n + 3) :: earlier⟩
  have hdefs : (Expr.evalDefs script ((0, .const (.bool true)) :: List.replicate n (0, twice))
      sc.deeper).run entered = (.ok sc', built) := by
    rw [Expr.evalDefs]
    exact (EvalM.run_bind_of_ok hfirst).trans hdoubled
  have hlast := run_const sc' built hlimit script (hsc' ▸ Nat.le_of_lt hdepth) hroom (.bool true)
  let finished : Meter := ⟨4 * n + 4, limit,
    .value (.bool true) (4 * n + 4) :: .node .const :: built.journal⟩
  refine ⟨finished.note (.value (.bool true) (4 * n + 4)), earlier, rfl, ⟨hroom, hlimit⟩, ?_,
    ⟨[_, _, _], rfl⟩⟩
  rw [doublings, Expr.evalWith]
  exact run_enter sc ⟨0, limit, []⟩ hlimit .block finished (by omega) (show 2 ≤ limit by omega)
    ((EvalM.run_bind_of_ok hdefs).trans hlast)

namespace Condition

omit [Suite] in
theorem version_doubling (n : Nat) : (doubling n).version = 0 := by
  have hdefs : ∀ op ∈ Expr.opcodesDefs (List.replicate n (0, twice)), op.since ≤ 0 := by
    induction n with
    | zero => exact List.forall_mem_nil _
    | succ n ih => exact List.forall_mem_append.2 ⟨by decide, ih⟩
  have hrequired : (doublings n).requiredVersion = 0 := by
    refine UInt8.le_antisymm (Expr.requiredVersion_le_iff.2 ?_) (UInt8.zero_le ..)
    refine List.forall_mem_cons.2 ⟨by decide, List.forall_mem_append.2 ⟨?_, by decide⟩⟩
    exact List.forall_mem_cons.2 ⟨by decide, hdefs⟩
  rw [doubling, new, version, header, hrequired]
  decide

/-- The condition holds, at the same cost. -/
theorem run_doubling (n : Nat) (ctx : Context) {limit : UInt64}
    (hroom : 4 * n + 4 ≤ limit.toNat) : ∃ m earlier, m.spent = 4 * n + 4 ∧
      ((doubling n).run ctx).run (Meter.new limit) = (.ok (.trivial true), m) ∧
      .value (doubled n) (4 * n + 3) :: earlier <:+ m.journal := by
  obtain ⟨m, earlier, hspent, hm, hroot, hnoted⟩ := run_doublings runScript n
    ((doubling n).scope ctx) (show 1 < maxExprDepth by decide) hroom
    (Meter.within_new limit).limit_le
  -- nothing in the condition asks for a newer version
  have hactive : ¬ctx.activatedVersion < (doubling n).version := by
    rw [version_doubling]
    exact UInt8.not_lt.2 (UInt8.zero_le ..)
  refine ⟨m, earlier, hspent, ?_, hnoted⟩
  rw [run, show (doubling n).root? = some (doublings n) from rfl]
  simp only [if_neg hactive]
  exact (EvalM.run_bind_of_ok hroot).trans (run_resultOf_bool hm true)

end Condition

end

/-! ## Reducing -/

namespace Condition

variable [Suite] {c : Condition} {ctx : Context}

/-- All that a reduction can start from is below a bound. -/
structure StartsBelow (M : Nat) (c : Condition) (ctx : Context) : Prop where
  constants : ∀ v ∈ c.constants, v.size < M
  expression : ∀ e ∈ c.root?, ConstantsBelow M e.nodes
  context : ctx.Below M
  scripts : ∀ s, c.Reads ctx s → ConstantsBelow M s.nodes

theorem affords_run (hΦ : Potential M Φ) (h : c.StartsBelow M ctx) :
    Affords Φ φ (c.run ctx) fun _ _ => True := by
  have hscope : (c.scope ctx).Below M φ := ⟨h.context, h.constants, List.forall_mem_nil _⟩
  unfold run
  split
  · exact .fail _
  · rename_i e he
    split
    · exact .failThen _ _
    -- of the scripts only those that the condition can read are below the bound
    · have hscripts : PaysForScripts M Φ (answering runScript e (c.scope ctx)) := by
        intro i t sc φ _
        refine answering_of (C := fun x => Affords Φ φ x (Atop φ)) ?_ (.malformed _) sc i t
        intro sc' i' t' hsc' hmem
        refine affords_runScript hΦ (hsc'.1 ▸ h.context) (fun s hs => ?_) t'
        rw [Scope.Holds, hsc'.1, hsc'.2] at hs
        exact h.scripts s ⟨e, he, i', t', hmem, hs⟩
      rw [Expr.eval, ← Expr.evalWith_answering]
      exact .bind (Expr.affords_evalWith hΦ hscripts e _ φ (h.expression e he) hscope)
        fun v _ _ => affords_resultOf hΦ v

/-- **How far values can grow.**  Whatever the limit, a value that is noted while the total is below
the largest cost is covered by the charges before it together with the copies before it; and it is
no larger than one doubling for each unit that was spent could make it.  Where no variable was read,
the charges alone cover it. -/
theorem size_of_noted (h : c.StartsBelow M ctx) {limit : UInt64} {v : Value} {spent : Nat}
    {earlier : List Step} (hspent : spent < maxCost)
    (hv : .value v spent :: earlier <:+ ((c.run ctx).run (Meter.new limit)).2.journal) :
    v.size ≤ M * spent + copied earlier ∧ v.size ≤ M * 2 ^ spent ∧
      (.node .use ∉ earlier → v.size ≤ M * spent) := by
  have hM := h.context.flatSize_lt
  -- either potential bounds all that is noted; they differ in how they pay for copies
  have hcovered {Φ : Nat → List Step → Nat} (hΦ : Potential M Φ) : v.size ≤ Φ spent earlier := by
    have hnew : (Meter.new limit).Covered Φ := fun _ _ _ hnoted =>
      absurd (List.suffix_nil.1 hnoted) (List.cons_ne_nil _ _)
    exact (affords_run hΦ h _ hnew fun _ => Nat.zero_le _).1 v spent earlier hv hspent
  refine ⟨hcovered (potential_copied hM), hcovered (potential_doubled hM), fun huse => ?_⟩
  have hle := hcovered (potential_copied hM)
  rwa [copied_eq_zero huse, Nat.add_zero] at hle

end Condition

theorem const_not_mem_replicate (n : Nat) (v : Value) :
    .const v ∉ Expr.nodesDefs (List.replicate n (0, twice)) := by
  induction n with
  | zero => exact List.not_mem_nil
  | succ n ih =>
    simpa [List.replicate_succ, Expr.nodesDefs, twice, Expr.nodes, Expr.nodesAll] using ih

/-- Doublings start from one boolean; the digest of the state is the largest thing around. -/
theorem Condition.startsBelow_doubling (n : Nat) : (doubling n).StartsBelow 35 .blank where
  constants := List.forall_mem_nil _
  expression := by
    rintro _ ⟨⟩ v hv
    have htrue : v = .bool true := by
      simpa [doublings, Expr.nodes, Expr.nodesDefs, const_not_mem_replicate] using hv
    rw [htrue]
    decide
  context := ⟨List.forall_mem_nil _, List.forall_mem_nil _, List.forall_mem_nil _, by decide,
    List.forall_mem_nil _⟩
  scripts := by
    rintro s ⟨_, -, i, _, -, b, hvariable, -⟩
    cases hvariable

/-- Fourteen doublings are within both bounds. -/
theorem Condition.size_of_noted_doubling :
    (doubling 14).StartsBelow 35 .blank ∧ 59 < maxCost ∧ ∃ earlier,
      .value (doubled 14) 59 :: earlier <:+
        (((doubling 14).run .blank).run (Meter.new 60)).2.journal ∧
      (doubled 14).size ≤ 35 * 59 + copied earlier ∧ (doubled 14).size ≤ 35 * 2 ^ 59 := by
  have hstart := startsBelow_doubling 14
  have hspent : 59 < maxCost := by decide
  have hroom : 4 * 14 + 4 ≤ (60 : UInt64).toNat := by decide
  obtain ⟨m, earlier, -, hrun, hnoted⟩ := run_doubling 14 .blank hroom
  rw [← show _ = m from congrArg Prod.snd hrun] at hnoted
  obtain ⟨hcopied, hdoubled, -⟩ := size_of_noted hstart hspent hnoted
  exact ⟨hstart, hspent, earlier, hnoted, hcopied, hdoubled⟩

/-- **Charges do not cover copies.**  After fourteen doublings fifty-nine units are spent, and the
value has 32767 nodes.  This is more than sixty times thirty-five, and yet the reduction succeeds at
a cost of sixty. -/
theorem Condition.size_of_noted_unpaid :
    (doubling 14).StartsBelow 35 .blank ∧
    (doubling 14).reduce .blank 60 = .ok ⟨.trivial true, 60⟩ ∧ ∃ earlier,
      .value (doubled 14) 59 :: earlier <:+
        (((doubling 14).run .blank).run (Meter.new 60)).2.journal ∧
      (59 + 1) * 35 < (doubled 14).size := by
  have hroom : 4 * 14 + 4 ≤ (60 : UInt64).toNat := by decide
  -- fourteen doublings and the constant around them use up the limit
  obtain ⟨m, earlier, hspent, hrun, hnoted⟩ := run_doubling 14 .blank hroom
  have hsize := size_doubled 14
  refine ⟨startsBelow_doubling 14, ?_, earlier, by rwa [hrun], by omega⟩
  rw [reduce, hrun]
  simp only [hspent]
  rfl

end Covenant

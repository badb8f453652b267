/-
  PAYING — what an evaluation has paid for covers the values that it holds.

  A potential is what may be held after so much was spent and these steps were taken.  It rises with
  every unit that is charged and with every variable that is read; a value that comes out is held on
  top of what was held before.  Whatever potential there is, it covers all values of a run.

  1. **`Potential M Φ`** — the rises that the proof needs, when all that an evaluation starts from
     is below `M`.
  2. **`Affords Φ φ x Q`** — from a potential of at least `φ`, a run of `x` notes covered values
     only, and what it returns satisfies `Q` together with the potential at its end.
  3. **Operations** — what comes out of an operation is at most `M` larger than what went in; and a
     loop pays for its result when the body of its function does.
-/
import Covenant.Proofs.Reduction.Sizes

namespace Covenant

/-! ## Potentials -/

/-- What may be held after so much was spent and these steps were taken, the newest first. -/
structure Potential (M : Nat) (Φ : Nat → List Step → Nat) : Prop where
  flatSize_lt : flatSize < M
  charge : ∀ spent journal cost, Φ spent journal + M * cost ≤ Φ (spent + cost) journal
  note : ∀ spent journal step, Φ spent journal ≤ Φ spent (step :: journal)
  /-- Reading a variable whose value is covered covers its copy as well. -/
  use : ∀ spent journal (v : Value), v.size ≤ Φ spent journal →
    v.size + Φ spent journal ≤ Φ (spent + Opcode.use.cost)
      (.value v (spent + Opcode.use.cost) :: .node .use :: journal)

theorem Potential.two_le {M : Nat} {Φ : Nat → List Step → Nat} (h : Potential M Φ) : 2 ≤ M :=
  Nat.le_trans (by decide) (Nat.le_of_lt h.flatSize_lt)

/-- The potential is at least `φ`.  At the largest cost, where sums stop, nothing is asked. -/
def Meter.Reaches (Φ : Nat → List Step → Nat) (m : Meter) (φ : Nat) : Prop :=
  m.spent < maxCost → φ ≤ Φ m.spent m.journal

/-- All values in the journal are covered by what the potential was when they were noted. -/
def Meter.Covered (Φ : Nat → List Step → Nat) (m : Meter) : Prop :=
  ∀ v spent earlier, .value v spent :: earlier <:+ m.journal → spent < maxCost →
    v.size ≤ Φ spent earlier

/-- A step may be noted when it is not a value, or one that is covered. -/
theorem Meter.Covered.note {Φ : Nat → List Step → Nat} {m : Meter} (hm : m.Covered Φ) {s : Step}
    (hs : ∀ v spent, s = .value v spent → spent < maxCost → v.size ≤ Φ spent m.journal) :
    (m.note s).Covered Φ := by
  intro v spent earlier hv
  rcases List.suffix_cons_iff.1 hv with heq | hv
  · obtain ⟨hs', rfl⟩ := List.cons.inj heq
    exact hs v spent hs'.symm
  · exact hm v spent earlier hv

/-- Below the largest cost, sums are exact. -/
theorem addCost_of_lt {a b : Nat} (h : addCost a b < maxCost) : addCost a b = a + b := by
  unfold addCost at h ⊢
  omega

/-- From a potential of at least `φ`, a run notes covered values only, and what it returns satisfies
`Q` together with a potential that is reached at its end. -/
def Affords (Φ : Nat → List Step → Nat) (φ : Nat) {α : Type} (x : EvalM α) (Q : α → Nat → Prop) :
    Prop :=
  ∀ m : Meter, m.Covered Φ → m.Reaches Φ φ → (x.run m).2.Covered Φ ∧
    ∀ a, (x.run m).1 = .ok a → ∃ φ', Q a φ' ∧ (x.run m).2.Reaches Φ φ'

/-- The value is held on top of `φ`. -/
abbrev Atop (φ : Nat) (v : Value) (φ' : Nat) : Prop := v.size + φ ≤ φ'

variable {M φ φ' : Nat} {Φ : Nat → List Step → Nat}

namespace Affords

variable {α β : Type} {Q : α → Nat → Prop} {R : β → Nat → Prop}

theorem pure {a : α} (h : Q a φ) : Affords Φ φ (Pure.pure a) Q := by
  refine fun m hm hφ => ⟨hm, fun b hb => ?_⟩
  cases hb
  exact ⟨φ, h, hφ⟩

theorem fail (e : ReductionError) : Affords Φ φ (throw e : EvalM α) Q :=
  fun _ hm _ => ⟨hm, nofun⟩

theorem malformed (d : ConditionDefect) : Affords Φ φ (EvalM.malformed d : EvalM α) Q := fail _

/-- Nothing goes on after a failure. -/
theorem failThen (e : ReductionError) (f : α → EvalM β) :
    Affords Φ φ ((throw e : EvalM α) >>= f) R := fail e

theorem failed (f : RuntimeFailure) : Affords Φ φ (EvalM.failed f : EvalM α) Q := fail _

theorem bind {x : EvalM α} {f : α → EvalM β} (hx : Affords Φ φ x Q)
    (hf : ∀ a φ', Q a φ' → Affords Φ φ' (f a) R) : Affords Φ φ (x >>= f) R := by
  intro m hm hφ
  obtain ⟨hcovered, hq⟩ := hx m hm hφ
  rw [EvalM.run_bind]
  rcases hrun : x.run m with ⟨r, m'⟩
  rw [hrun] at hcovered hq
  cases r with
  | error e => exact ⟨hcovered, by simp⟩
  | ok a =>
    obtain ⟨φ', ha, hφ'⟩ := hq a rfl
    exact hf a φ' ha m' hcovered hφ'

/-- What is afforded with less is afforded with more. -/
theorem mono {x : EvalM α} (hx : Affords Φ φ x Q) (h : φ ≤ φ') : Affords Φ φ' x Q :=
  fun m hm hφ => hx m hm fun hlt => Nat.le_trans h (hφ hlt)

theorem imp {x : EvalM α} (hx : Affords Φ φ x Q) {Q' : α → Nat → Prop}
    (h : ∀ a φ', Q a φ' → Q' a φ') : Affords Φ φ x Q' := by
  intro m hm hφ
  obtain ⟨hcovered, hq⟩ := hx m hm hφ
  refine ⟨hcovered, fun a ha => ?_⟩
  obtain ⟨φ', ha, hφ'⟩ := hq a ha
  exact ⟨φ', h a φ' ha, hφ'⟩

theorem lift {r : Except ReductionError α} (h : ∀ a, r = .ok a → Q a φ) :
    Affords Φ φ (EvalM.lift r) Q := by
  cases r with
  | ok a => exact pure (h a rfl)
  | error e => exact fail e

/-- A step that spends nothing, of which only the results it has go on. -/
theorem liftThen {r : Except ReductionError α} {f : α → EvalM β}
    (hf : ∀ a, r = .ok a → Affords Φ φ (f a) R) : Affords Φ φ (EvalM.lift r >>= f) R := by
  cases r with
  | ok a => exact hf a rfl
  | error e => exact fail e

/-- A check in front of a computation, which knows its outcome. -/
theorem check {c : Prop} [Decidable c] {d : ConditionDefect} {y : EvalM α}
    (hy : ¬c → Affords Φ φ y Q) :
    Affords Φ φ (if c then EvalM.malformed d >>= fun _ : PUnit => y else y) Q := by
  split
  · exact failThen _ _
  · exact hy ‹_›

theorem ite {c : Prop} [Decidable c] {x y : EvalM α} (hx : Affords Φ φ x Q)
    (hy : Affords Φ φ y Q) : Affords Φ φ (if c then x else y) Q := by
  split
  · exact hx
  · exact hy

/-- A charge raises the potential by any price that it covers. -/
theorem charge (hΦ : Potential M Φ) (price : Nat) {cost : Nat} (h : cost < maxCost → price ≤ cost) :
    Affords Φ φ (EvalM.charge cost) fun _ φ' => φ + M * price ≤ φ' := by
  intro m hm hφ
  rw [EvalM.run_charge]
  split
  · exact ⟨hm, by simp⟩
  · refine ⟨hm, fun _ _ => ⟨_, Nat.le_refl _, fun hlt => ?_⟩⟩
    -- below the largest cost the sum is exact, and so the whole charge counts
    have hexact := addCost_of_lt hlt
    simp only [hexact] at hlt ⊢
    have hprice := Nat.mul_le_mul_left M (h (by omega))
    have hcharge := hΦ.charge m.spent m.journal cost
    have hbefore := hφ (by omega)
    omega

/-- A charge of which nothing is needed. -/
theorem spend (hΦ : Potential M Φ) (cost : Nat) :
    Affords Φ φ (EvalM.charge cost) fun _ φ' => φ ≤ φ' :=
  charge hΦ 0 fun _ => Nat.zero_le cost

theorem note (hΦ : Potential M Φ) {s : Step} (hs : ∀ v spent, s ≠ .value v spent) :
    Affords Φ φ (EvalM.note s) fun _ φ' => φ ≤ φ' :=
  fun _ hm hφ => ⟨hm.note fun v spent h => absurd h (hs v spent), fun _ _ =>
    ⟨φ, Nat.le_refl φ, fun hlt => Nat.le_trans (hφ hlt) (hΦ.note ..)⟩⟩

theorem noteValue (hΦ : Potential M Φ) {v : Value} (hv : v.size ≤ φ) :
    Affords Φ φ (EvalM.noteValue v) fun _ φ' => φ ≤ φ' := by
  refine fun m hm hφ => ⟨hm.note ?_, fun _ _ =>
    ⟨φ, Nat.le_refl φ, fun hlt => Nat.le_trans (hφ hlt) (hΦ.note ..)⟩⟩
  rintro _ _ ⟨⟩ hlt
  exact Nat.le_trans hv (hφ hlt)

/-- Items that were paid for could each be as large as what an evaluation starts from. -/
theorem chargeItems (hΦ : Potential M Φ) (n : Nat) :
    Affords Φ φ (EvalM.chargeItems n) fun _ φ' => φ + M * n ≤ φ' := by
  refine .bind (charge hΦ n ?_) fun _ φ₁ h₁ => (note hΦ (s := .items n) (by simp)).mono h₁
  intro hlt
  simp only [unitsCost, itemCost] at hlt ⊢
  omega

end Affords

/-! ## What an evaluation starts from -/

/-- All constants among some nodes are below a bound. -/
def ConstantsBelow (M : Nat) (ns : List Expr) : Prop := ∀ v, .const v ∈ ns → v.size < M

namespace ConstantsBelow

variable {n : Expr} {ns ms : List Expr}

theorem tail (h : ConstantsBelow M (n :: ns)) : ConstantsBelow M ns :=
  fun v hv => h v (List.mem_cons_of_mem n hv)

theorem append (h : ConstantsBelow M (ns ++ ms)) : ConstantsBelow M ns ∧ ConstantsBelow M ms :=
  ⟨fun v hv => h v (List.mem_append_left ms hv), fun v hv => h v (List.mem_append_right ns hv)⟩

end ConstantsBelow

/-- Everything that a condition can see is below a bound. -/
structure Context.Below (M : Nat) (c : Context) : Prop where
  inputs : ∀ b ∈ c.tx.inputs, (Value.box b).size < M
  dataInputs : ∀ b ∈ c.tx.dataInputs, (Value.box b).size < M
  outputs : ∀ b ∈ c.tx.outputs, (Value.box b).size < M
  stateDigest : (Value.bytes c.tx.state.digest.1).size < M
  extension : ∀ e ∈ c.extension.entries, e.2.size < M

/-- The digest of the state has thirty-three octets. -/
theorem Context.Below.flatSize_lt {c : Context} (h : c.Below M) : flatSize < M := by
  have hdigest := h.stateDigest
  rwa [Value.size, c.tx.state.digest.2] at hdigest

/-- Everything that an expression can refer to is below a bound, variables aside: these are
covered. -/
structure Scope.Below (M φ : Nat) (sc : Scope) : Prop where
  context : sc.context.Below M
  constants : ∀ v ∈ sc.constants, v.size < M
  bindings : ∀ b ∈ sc.bindings, b.2.size ≤ φ

namespace Scope.Below

variable {sc : Scope}

theorem mono (h : sc.Below M φ) (hle : φ ≤ φ') : sc.Below M φ' :=
  ⟨h.context, h.constants, fun b hb => Nat.le_trans (h.bindings b hb) hle⟩

theorem deeper (h : sc.Below M φ) : sc.deeper.Below M φ := ⟨h.context, h.constants, h.bindings⟩

theorem bind (h : sc.Below M φ) (id : UInt32) {v : Value} (hv : v.size ≤ φ) :
    (sc.bind id v).Below M φ :=
  ⟨h.context, h.constants, List.forall_mem_cons.2 ⟨hv, h.bindings⟩⟩

end Scope.Below

/-- Only the context is visible in the scope of a script. -/
theorem Context.Below.isolated {sc : Scope} (h : sc.context.Below M) : sc.isolated.Below M φ :=
  ⟨h, List.forall_mem_nil _, List.forall_mem_nil _⟩

theorem Context.Below.variable {c : Context} (h : c.Below M) {id : UInt8} :
    ∀ v ∈ c.extension.get? id, v.size < M :=
  fun _ hv => h.extension _ (mem_of_lookup hv)

/-! ## Values of the right kind -/

/-- A look at a value spends nothing. -/
theorem EvalM.Finds.affords {α : Type} {Q : α → Prop} {x : EvalM α} (h : EvalM.Finds Q x) :
    Affords Φ φ x fun a φ' => Q a ∧ φ ≤ φ' := by
  cases h with
  | found h => exact .pure ⟨(h _).2 rfl, Nat.le_refl φ⟩
  | missing => exact .malformed _

namespace Value

variable (v : Value)

theorem affords_asOption :
    Affords Φ φ v.asOption fun o φ' => (∀ w ∈ o, w.size ≤ v.size) ∧ φ ≤ φ' := by
  refine v.finds_asOption.affords.imp fun o φ' ⟨⟨t, ho⟩, h⟩ => ⟨?_, h⟩
  subst ho
  rintro w ⟨⟩
  exact Nat.le_add_left w.size 1

theorem affords_asProposition :
    Affords Φ φ v.asProposition fun p φ' => p.size ≤ v.size ∧ φ ≤ φ' := by
  refine v.finds_asProposition.affords.imp fun p φ' ⟨hp, h⟩ => ⟨?_, h⟩
  rcases hp with rfl | ⟨b, rfl, rfl⟩
  · exact Nat.le_add_left _ 1
  · exact Nat.le_refl 1

end Value

/-! ## Operations on values -/

/-- Propositions are smaller than the values that hold them. -/
theorem sizeAll_le_sizeAll_map (ps : List Proposition) :
    Proposition.sizeAll ps ≤ Value.sizeAll (ps.map .sigmaProp) := by
  induction ps with
  | nil => exact Nat.le_refl 0
  | cons p ps ih =>
    have hp : p.size ≤ (Value.sigmaProp p).size := Nat.le_add_left p.size 1
    rw [List.map_cons, Value.sizeAll_cons, Proposition.sizeAll]
    omega

theorem affords_propositionItems (c : Coll) : Affords Φ φ (propositionItems c) fun ps φ' =>
    Proposition.sizeAll ps < c.toValue.size ∧ φ ≤ φ' := by
  refine (finds_propositionItems c).affords.imp fun ps φ' ⟨hps, h⟩ => ⟨?_, h⟩
  subst hps
  rw [Coll.toValue, Value.size_seq]
  have hle := sizeAll_le_sizeAll_map ps
  omega

theorem affords_selectItem {v : Value} (hv : Atop φ v φ') (number : UInt8) :
    Affords Φ φ' (selectItem v number) (Atop φ) := by
  refine (finds_selectItem v number).affords.imp fun w φ₁ ⟨⟨vs, htuple, i, _, hw⟩, h₁⟩ => ?_
  subst htuple
  have hle := Value.size_le_sizeAll (List.mem_of_getElem? hw)
  rw [Atop, Value.size] at hv
  rw [Atop]
  omega

theorem affords_collectItems (t : ValueType) {vs : List Value}
    (hvs : 1 + Value.sizeAll vs + φ ≤ φ') : Affords Φ φ' (collectItems t vs) (Atop φ) := by
  refine (finds_collectItems t vs).affords.imp fun w φ₁ ⟨⟨_, hw⟩, h₁⟩ => ?_
  subst hw
  have hle := Coll.size_ofList_le t vs
  rw [Atop]
  omega

section Operations

variable (hΦ : Potential M Φ) (hφ : φ + M ≤ φ')
include hΦ hφ

/-- A value that is no larger than it has to be is paid for by its node. -/
theorem atop_of_le_flatSize {v : Value} (hv : v.size ≤ flatSize) : Atop φ v φ' := by
  have hM := hΦ.flatSize_lt
  omega

theorem affords_boxColl {bs : List Box} (hbs : ∀ b ∈ bs, (Value.box b).size < M) :
    Affords Φ φ' (boxColl bs) (Atop φ) := by
  refine .bind (.chargeItems hΦ _) fun _ φ₁ h₁ => .pure ?_
  have hM := hΦ.two_le
  have hboxes : ∀ v ∈ bs.map Value.box, v.size ≤ M :=
    List.forall_mem_map.2 fun b hb => Nat.le_of_lt (hbs b hb)
  have hsum := Value.sizeAll_le_mul hboxes
  rw [List.length_map] at hsum
  rw [Atop, Value.size]
  omega

theorem ContextField.affords_read {c : Context} (hc : c.Below M) (f : ContextField) :
    Affords Φ φ' (f.read c) (Atop φ) := by
  cases f with
  | height =>
    exact .lift fun v hv => atop_of_le_flatSize hΦ hφ (computed_intOf hv).size_le
  | selfBox =>
    simp only [ContextField.read]
    split
    · rename_i b hb
      have hb := hc.inputs b (List.mem_of_getElem? hb)
      exact .pure (by omega)
    · exact .fail _
  | inputs => exact affords_boxColl hΦ hφ hc.inputs
  | outputs => exact affords_boxColl hΦ hφ hc.outputs
  | dataInputs => exact affords_boxColl hΦ hφ hc.dataInputs
  | headers =>
    refine .bind (.chargeItems hΦ _) fun _ φ₁ h₁ => .pure ?_
    have hM := hΦ.two_le
    -- headers are paid for by the item, so many of them may be read
    have hheaders : ∀ v ∈ c.tx.state.headers.map Value.header, v.size ≤ M :=
      List.forall_mem_map.2 fun _ _ => show 1 ≤ M by omega
    have hsum := Value.sizeAll_le_mul hheaders
    rw [List.length_map] at hsum
    rw [Atop, Value.size]
    omega
  | preHeader => exact .pure (atop_of_le_flatSize hΦ hφ (size_le_flatSize rfl))
  | minerKey | stateDigest =>
    exact .pure (atop_of_le_flatSize hΦ hφ (size_bytes_le _ (by decide)))

theorem affords_boolItems (v : Value) : Affords Φ φ' (boolItems v) fun _ φ' => φ + M ≤ φ' := by
  refine .bind v.finds_asColl.affords fun c φ₁ h₁ => .bind (.chargeItems hΦ _) fun _ φ₂ h₂ => ?_
  split
  · exact .pure (by omega)
  · exact .malformed _

theorem affords_hashBytes (hash : Bytes → Octets 32) (v : Value) :
    Affords Φ φ' (hashBytes hash v) (Atop φ) := by
  refine .bind v.finds_asBytes.affords fun b φ₁ h₁ => .bind (.spend hΦ _) fun _ φ₂ h₂ => ?_
  exact .pure (atop_of_le_flatSize hΦ (by omega) (size_bytes_le _ (by decide)))

omit hφ

theorem affords_sliceColl {c : Coll} (hc : Atop φ c.toValue φ') (lower upper : Int32) :
    Affords Φ φ' (sliceColl c lower upper) (Atop φ) := by
  refine .bind (.chargeItems hΦ _) fun _ φ₁ h₁ => .pure ?_
  have hle := c.size_slice_le (min (clamp lower c.size) (clamp upper c.size)) (clamp upper c.size)
  omega

theorem affords_atLeastOf (k : Int32) {c : Coll} (hc : Atop (φ + M) c.toValue φ') :
    Affords Φ φ' (atLeastOf k c) (Atop φ) := by
  have hM := hΦ.two_le
  refine .bind (affords_propositionItems c) fun ps φ₁ h₁ => .check fun _ =>
    .bind (.chargeItems hΦ _) fun _ φ₂ h₂ => .pure ?_
  have hle := Proposition.size_atLeast_le k.toInt.toNat ps
  rw [Atop, Value.size, Atom.size]
  omega

variable [Suite]

theorem Box.affords_read {b : Box} (hb : Atop (φ + M) (.box b) φ') (f : BoxField) :
    Affords Φ φ' (b.read f) (Atop φ) := by
  have hle : φ + M ≤ φ' := by omega
  -- a part of the box is smaller than the box, which was paid for
  have hpart : 1 + b.size + φ ≤ φ' := by
    rw [Atop, Value.size] at hb
    omega
  rw [Box.size_eq] at hpart
  cases f with
  | value =>
    exact .lift fun v hv => atop_of_le_flatSize hΦ hle (computed_longOf hv).size_le
  | creationHeight =>
    exact .lift fun v hv => atop_of_le_flatSize hΦ hle (computed_intOf hv).size_le
  | scriptBytes =>
    refine .pure ?_
    rw [Atop, Value.size]
    omega
  | id => exact .pure (atop_of_le_flatSize hΦ hle (size_bytes_le _ (by decide)))
  | tokens =>
    refine .bind (.chargeItems hΦ _) fun _ φ₁ h₁ => .liftThen fun vs hvs => .pure ?_
    have hsize := sizeAll_tokens_le hvs
    rw [Atop, Value.size]
    omega

theorem UnaryOp.affords_apply {v : Value} (hv : Atop (φ + M) v φ') (op : UnaryOp) :
    Affords Φ φ' (op.apply v) (Atop φ) := by
  have hle : φ + M ≤ φ' := by omega
  cases op with
  | extract f =>
    refine .bind v.finds_asBox.affords fun b φ₁ h₁ => Box.affords_read hΦ ?_ f
    obtain ⟨rfl, h₁⟩ := h₁
    omega
  | negate =>
    exact .lift fun w hw => atop_of_le_flatSize hΦ hle (computed_negate hw).size_le
  | toBigInt =>
    exact .lift fun w hw => atop_of_le_flatSize hΦ hle (computed_toBigInt hw).size_le
  | not =>
    exact .bind v.finds_asBool.affords fun b φ₁ h₁ => .pure
      (atop_of_le_flatSize hΦ (by omega) (size_le_flatSize rfl))
  | optionIsDefined =>
    exact .bind v.affords_asOption fun o φ₁ h₁ => .pure
      (atop_of_le_flatSize hΦ (by omega) (size_le_flatSize rfl))
  | allOf | anyOf =>
    exact .bind (affords_boolItems hΦ hle v) fun bs φ₁ h₁ => .pure
      (atop_of_le_flatSize hΦ h₁ (size_le_flatSize rfl))
  | boolToSigma =>
    refine .bind v.finds_asBool.affords fun b φ₁ h₁ => .pure (atop_of_le_flatSize hΦ (by omega) ?_)
    exact show 2 ≤ flatSize by decide
  | proveDlog =>
    refine .bind v.finds_asPoint.affords fun y φ₁ h₁ => .pure (atop_of_le_flatSize hΦ (by omega) ?_)
    exact show 2 ≤ flatSize by decide
  | sizeOf =>
    exact .bind v.finds_asColl.affords fun c φ₁ h₁ => .lift fun w hw =>
      atop_of_le_flatSize hΦ (by omega) (computed_intOf hw).size_le
  | optionGet =>
    refine .bind v.affords_asOption fun o φ₁ h₁ => ?_
    split
    · rename_i w
      -- what was inside the option is smaller than the option
      have hw := h₁.1 w rfl
      exact .pure (by omega)
    · exact .failed _
  | sha256 | blake3 => exact affords_hashBytes hΦ hle _ v

end Operations

/-! ## Functions applied to items -/

/-- In every scope that it may start from, the body of a function pays for its value. -/
def PaysFor (M : Nat) (Φ : Nat → List Step → Nat) (body : Scope → EvalM Value) : Prop :=
  ∀ sc φ, sc.Below M φ → Affords Φ φ (body sc) (Atop φ)

section Functions

variable (hΦ : Potential M Φ) {sig : Signature} {body : Scope → EvalM Value}
  (hbody : PaysFor M Φ body) {sc : Scope} (hsc : sc.Below M φ)
include hΦ hbody hsc

theorem affords_applyFunction {arg : Value} (harg : arg.size ≤ φ) :
    Affords Φ φ (applyFunction sig body sc arg) (Atop φ) := by
  unfold applyFunction
  split
  · refine .check fun _ => .bind (.noteValue hΦ harg) fun _ φ₁ h₁ => ?_
    refine .bind (hbody _ _ ((hsc.mono h₁).bind _ (Nat.le_trans harg h₁))) fun v φ₂ h₂ => ?_
    exact .check fun _ => .pure (by omega)
  · exact .malformed _

theorem affords_applyPredicate {arg : Value} (harg : arg.size ≤ φ) :
    Affords Φ φ (applyPredicate sig body sc arg) fun _ φ' => φ ≤ φ' := by
  refine .bind (affords_applyFunction hΦ hbody hsc harg) fun v φ₁ h₁ => ?_
  split
  · exact .pure (by omega)
  · exact .malformed _

theorem affords_mapItems {vs : List Value} (hvs : ∀ v ∈ vs, v.size ≤ φ) :
    Affords Φ φ (mapItems (applyFunction sig body sc) vs) fun ws φ' =>
      Value.sizeAll ws + φ ≤ φ' := by
  induction vs generalizing φ with
  | nil => exact .pure (Nat.le_of_eq (Nat.zero_add φ))
  | cons v vs ih =>
    obtain ⟨hv, hvs⟩ := List.forall_mem_cons.1 hvs
    refine .bind (affords_applyFunction hΦ hbody hsc hv) fun w φ₁ h₁ => ?_
    have hle : φ ≤ φ₁ := by omega
    refine .bind (ih (hsc.mono hle) fun v hv => Nat.le_trans (hvs v hv) hle) fun ws φ₂ h₂ => ?_
    refine .pure ?_
    rw [Value.sizeAll]
    omega

/-- What a predicate accepts was there before. -/
theorem affords_filterItems {vs : List Value} (hvs : ∀ v ∈ vs, v.size ≤ φ) :
    Affords Φ φ (filterItems (applyPredicate sig body sc) vs) fun ws φ' =>
      Value.sizeAll ws ≤ Value.sizeAll vs ∧ φ ≤ φ' := by
  induction vs generalizing φ with
  | nil => exact .pure ⟨Nat.le_refl 0, Nat.le_refl φ⟩
  | cons v vs ih =>
    obtain ⟨hv, hvs⟩ := List.forall_mem_cons.1 hvs
    refine .bind (affords_applyPredicate hΦ hbody hsc hv) fun b φ₁ h₁ => ?_
    refine .bind (ih (hsc.mono h₁) fun v hv => Nat.le_trans (hvs v hv) h₁) fun ws φ₂ h₂ => ?_
    refine .pure ?_
    rw [Value.sizeAll]
    -- an item that is dropped only makes the result smaller
    split
    · rw [Value.sizeAll]
      omega
    · omega

theorem affords_findItem (wanted : Bool) {vs : List Value} (hvs : ∀ v ∈ vs, v.size ≤ φ) :
    Affords Φ φ (findItem (applyPredicate sig body sc) wanted vs) fun _ φ' => φ ≤ φ' := by
  induction vs generalizing φ with
  | nil => exact .pure (Nat.le_refl φ)
  | cons v vs ih =>
    obtain ⟨hv, hvs⟩ := List.forall_mem_cons.1 hvs
    refine .bind (.chargeItems hΦ 1) fun _ φ₁ h₁ => ?_
    have hle : φ ≤ φ₁ := by omega
    refine .bind (affords_applyPredicate hΦ hbody (hsc.mono hle) (Nat.le_trans hv hle))
      fun b φ₂ h₂ => .ite (.pure (by omega)) ?_
    have hle : φ ≤ φ₂ := Nat.le_trans hle h₂
    refine (ih (hsc.mono hle) fun v hv => Nat.le_trans (hvs v hv) hle).imp fun _ φ₃ h₃ => ?_
    exact Nat.le_trans hle h₃

/-- Each item stays covered, so that there is room for a pair with what was accumulated. -/
theorem affords_foldItems {acc : Value} {vs : List Value} {room : Nat} (hacc : acc.size + room ≤ φ)
    (hvs : ∀ v ∈ vs, 1 + v.size ≤ room) :
    Affords Φ φ (foldItems (applyFunction sig body sc) acc vs) (Atop room) := by
  induction vs generalizing φ acc with
  | nil => exact .pure hacc
  | cons v vs ih =>
    obtain ⟨hv, hvs⟩ := List.forall_mem_cons.1 hvs
    have hpair : (Value.pair acc v).size ≤ φ := by
      rw [Value.size_pair]
      omega
    refine .bind (affords_applyFunction hΦ hbody hsc hpair) fun w φ₁ h₁ => ?_
    exact ih (hsc.mono (by omega)) (by omega) hvs

theorem LoopOp.affords_run (op : LoopOp) {c : Coll} (hc : Atop (φ' + M) c.toValue φ) :
    Affords Φ φ (op.run sig body sc c) (Atop φ') := by
  have hM := hΦ.two_le
  -- the items are smaller than the collection, and stay so while the meter goes up
  have hitems (φ₁ : Nat) (h₁ : φ ≤ φ₁) : ∀ v ∈ c.toList, v.size ≤ φ₁ := by
    intro v hv
    have hlt := Coll.size_lt_of_mem hv
    omega
  have hsum := c.sizeAll_toList_lt
  cases op with
  | map =>
    refine .bind (.chargeItems hΦ _) fun _ φ₁ h₁ => ?_
    have hle : φ ≤ φ₁ := by omega
    refine .bind (affords_mapItems hΦ hbody (hsc.mono hle) (hitems φ₁ hle)) fun ws φ₂ h₂ => ?_
    exact affords_collectItems _ (by omega)
  | filter =>
    refine .bind (.chargeItems hΦ _) fun _ φ₁ h₁ => ?_
    have hle : φ ≤ φ₁ := by omega
    refine .bind (affords_filterItems hΦ hbody (hsc.mono hle) (hitems φ₁ hle)) fun ws φ₂ h₂ => ?_
    have hkept := Coll.size_ofList_le c.itemType ws
    exact .pure (by omega)
  | «exists» | forAll =>
    refine .bind (affords_findItem hΦ hbody hsc _ (hitems φ (Nat.le_refl φ))) fun b φ₁ h₁ => ?_
    exact .pure (atop_of_le_flatSize hΦ (by omega) (size_le_flatSize rfl))

end Functions

end Covenant

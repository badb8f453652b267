/-
  TYPING — evaluation keeps values well typed, and so it misses no item of a collection.

  Nothing checks an expression before it runs.  The operations on collections rely on types all the
  same: the flat form is made by picking the bytes out of a list, booleans are picked out of a
  collection in the same way, and an equality of two collections compares their forms.  An item of
  another type would be dropped without an error, and a byte string that is not flat would differ
  from itself.

  1. **`Discipline.types`** — the rule of types is a discipline.
  2. **`Coll.Lossless`** — what a well typed collection can be relied on for: all its booleans are
     seen, a map has a result for each item, and a filter keeps just the items it accepts.
  3. **`Condition.wellTyped_of_noted`** — every value of a reduction is well typed, and with it comes
     the rest.
-/
import Covenant.Proofs.Reduction.Exact
import Covenant.Proofs.Reduction.Gating
import Covenant.Proofs.Reduction.Noted
import Covenant.Proofs.Script.Formed

namespace Covenant

/-! ## The rule of types -/

/-- Parts have the types that their values name; any type may be named, and tuples may be of any
length. -/
def Discipline.types : Discipline where
  rule := Value.Typed
  names _ := True
  builds _ := True
  builtIn _ _ := trivial
  atom _ := trivial
  box _ := trivial
  bytes _ := trivial
  seq _ _ _ hflat htype := ⟨hflat, htype⟩
  subset _ _ _ hvs hsub := ⟨hvs.1, fun v hv => hvs.2 v (hsub hv)⟩
  option _ _ _ htype := htype
  pair _ _ := trivial
  tuple _ _ _ := trivial

/-! ## Collections without losses -/

/-- The value is a collection of these items, flat or not. -/
def Value.Lists (v : Value) (t : ValueType) (items : List Value) : Prop :=
  ∃ c, Coll.ofValue? v = some c ∧ c.itemType = t ∧ c.toList = items

/-- The items at which a list of booleans is true. -/
def accepted : List Value → List Bool → List Value
  | v :: vs, b :: bs => if b then v :: accepted vs bs else accepted vs bs
  | _, _ => []

/-- Nothing that goes through the items of the collection misses one of them. -/
structure Coll.Lossless (c : Coll) : Prop where
  /-- A collection of booleans gives as many booleans, and no other collection gives any. -/
  bools : ∀ bs, Returns (boolItems c.toValue) bs ↔
    c.itemType = .bool ∧ c.toList = bs.map Value.bool
  /-- A map returns what the function returns for each of the items. -/
  map : ∀ sig body sc v, Returns (LoopOp.map.run sig body sc c) v → ∃ ws,
    List.Forall₂ (fun item w => Returns (applyFunction sig body sc item) w) c.toList ws ∧
    v.Lists sig.result ws
  /-- A filter returns the items that the predicate accepts. -/
  filter : ∀ sig body sc v, Returns (LoopOp.filter.run sig body sc c) v → ∃ bs,
    List.Forall₂ (fun item b => Returns (applyPredicate sig body sc item) b) c.toList bs ∧
    v.Lists c.itemType (accepted c.toList bs)

theorem Coll.lists_toValue (c : Coll) : c.toValue.Lists c.itemType c.toList :=
  ⟨c, c.ofValue?_toValue, rfl, rfl⟩

theorem Coll.lists_ofList {t : ValueType} {vs : List Value} (h : ∀ v ∈ vs, v.type = t) :
    (ofList t vs).toValue.Lists t vs := by
  have hlists := (ofList t vs).lists_toValue
  rwa [itemType_ofList, toList_ofList h] at hlists

/-- Nothing is accepted that was not there. -/
theorem accepted_subset (vs : List Value) (bs : List Bool) : accepted vs bs ⊆ vs := by
  fun_induction accepted vs bs with
  | case1 v vs bs ih => exact List.cons_subset_cons v ih
  | case2 v vs b bs _ ih => exact List.subset_cons_of_subset v ih
  | case3 => exact List.nil_subset _

/-! ## Returning from loops -/

section

variable {α β : Type}

/-- What a sequence returns, its second step returns from what the first returns. -/
theorem Returns.of_bind {x : EvalM α} {f : α → EvalM β} {b : β} (h : Returns (x >>= f) b) :
    ∃ a, Returns x a ∧ Returns (f a) b := by
  obtain ⟨m, m', hrun⟩ := h
  obtain ⟨a, m₁, hfirst, hrest⟩ := EvalM.run_bind_eq_ok.1 hrun
  exact ⟨a, ⟨m, m₁, hfirst⟩, m₁, m', hrest⟩

theorem Returns.of_pure {a b : α} (h : Returns (pure a) b) : a = b := by
  obtain ⟨m, m', hrun⟩ := h
  cases hrun
  rfl

theorem returns_mapItems {f : Value → EvalM Value} {vs ws : List Value}
    (h : Returns (mapItems f vs) ws) : List.Forall₂ (fun v w => Returns (f v) w) vs ws := by
  induction vs generalizing ws with
  | nil =>
    obtain rfl := h.of_pure
    exact .nil
  | cons v vs ih =>
    obtain ⟨w, hw, h⟩ := h.of_bind
    obtain ⟨ws', hws, h⟩ := h.of_bind
    obtain rfl := h.of_pure
    exact .cons hw (ih hws)

theorem returns_filterItems {p : Value → EvalM Bool} {vs ws : List Value}
    (h : Returns (filterItems p vs) ws) : ∃ bs,
      List.Forall₂ (fun v b => Returns (p v) b) vs bs ∧ ws = accepted vs bs := by
  induction vs generalizing ws with
  | nil =>
    obtain rfl := h.of_pure
    exact ⟨[], .nil, rfl⟩
  | cons v vs ih =>
    obtain ⟨b, hb, h⟩ := h.of_bind
    obtain ⟨ws', hws, h⟩ := h.of_bind
    obtain rfl := h.of_pure
    obtain ⟨bs, hbs, rfl⟩ := ih hws
    exact ⟨b :: bs, .cons hb hbs, rfl⟩

end

/-- **Items become a collection of exactly these items**, or they become none. -/
theorem lists_of_collectItems {t : ValueType} {vs : List Value} {v : Value}
    (h : Returns (collectItems t vs) v) : v.Lists t vs := by
  obtain ⟨htype, rfl⟩ := ((finds_collectItems t vs).exact.returns_iff v).1 h
  exact Coll.lists_ofList htype

/-- Booleans are told apart from all other values. -/
theorem filterMap_bool? {vs : List Value} (h : ∀ v ∈ vs, v.type = .bool) :
    (vs.filterMap Value.bool?).map Value.bool = vs := by
  induction vs with
  | nil => rfl
  | cons v vs ih =>
    obtain ⟨hv, hvs⟩ := List.forall_mem_cons.1 h
    cases v with
    | atom a =>
      cases a <;> cases hv
      simpa [Value.bool?] using ih hvs
    | _ => cases hv

/-- Costs aside, the booleans of a collection are its items. -/
theorem Coll.exact_boolItems {c : Coll} (hc : c.toValue.WellTyped) :
    Exact (boolItems c.toValue) fun bs => c.itemType = .bool ∧ c.toList = bs.map Value.bool := by
  have hitems := type_of_mem hc
  refine (c.toValue.exact_asColl.bind fun c' => (Exact.chargeItems c'.size).seq
    (Q := fun bs => c'.itemType = .bool ∧ bs = c'.toList.filterMap Value.bool?) ?_).congr
    fun bs => ?_
  · split
    · exact (Exact.pure _).congr fun bs => by simp [itemType, toList]
    · rename_i hother
      -- a collection of another type is refused, and the description excludes it
      refine (Exact.malformed _).congr fun bs => ⟨False.elim, fun h => ?_⟩
      cases c' with
      | bytes b => cases h.1
      | values t vs =>
        cases h.1
        exact hother vs rfl
  · simp only [ofValue?_toValue, Option.some.injEq, exists_eq_left']
    -- items of a collection of booleans are booleans, so reading them loses none
    refine and_congr_right fun hbool => ⟨?_, fun h => ?_⟩
    · rintro rfl
      exact (filterMap_bool? (hbool ▸ hitems)).symm
    · rw [h]
      simp [List.filterMap_map, Function.comp_def, Value.bool?]

/-- **A well typed collection loses nothing.** -/
theorem Coll.lossless {c : Coll} (hc : c.toValue.WellTyped) : c.Lossless where
  bools := (exact_boolItems hc).returns_iff
  map sig body sc v h := by
    obtain ⟨_, -, h⟩ := h.of_bind
    obtain ⟨ws, hws, h⟩ := h.of_bind
    exact ⟨ws, returns_mapItems hws, lists_of_collectItems h⟩
  filter sig body sc v h := by
    obtain ⟨_, -, h⟩ := h.of_bind
    obtain ⟨ws, hws, h⟩ := h.of_bind
    obtain rfl := h.of_pure
    obtain ⟨bs, hbs, rfl⟩ := returns_filterItems hws
    exact ⟨bs, hbs, lists_ofList fun v hv => type_of_mem hc v (accepted_subset _ _ hv)⟩

/-! ## Reductions -/

namespace Condition

variable [Suite] {c : Condition} {ctx : Context}

/-- Scripts bring nothing that is not well typed; this need not be assumed of them. -/
theorem Embeds.starts_types (h : c.Embeds Value.WellTyped ctx) : c.Starts .types ctx where
  embedded := h
  expression _ _ _ _ := ⟨fun _ _ => trivial, fun _ _ => trivial⟩
  scripts _ hs n hn :=
    { types := fun _ _ => trivial
      tuple := fun _ _ => trivial
      values := fun v hv => ((hs.formed n hn).values v hv).imp fun _ => Value.Formed.typed }

/-- **Evaluation keeps values well typed.**  When the values embedded in a condition and in what it
sees are well typed, so is every value that its reduction comes across, whatever the limit, and no
operation misses an item of a collection among them: not one that picks booleans, nor a map, nor a
filter, nor one that puts items together.  Two of these values that are the same item by item are
the same to a comparison. -/
theorem wellTyped_of_noted (h : c.Embeds Value.WellTyped ctx) (limit : UInt64) :
    (∀ v, c.Notes ctx limit v → v.WellTyped ∧
      ∀ coll, Coll.ofValue? v = some coll → coll.Lossless) ∧
    (∀ t vs v, Returns (collectItems t vs) v → v.Lists t vs) ∧
    ∀ v w, c.Notes ctx limit v → c.Notes ctx limit w → v.itemized = w.itemized →
      CompareOp.eq.apply v w = .ok (.bool true) ∧ CompareOp.neq.apply v w = .ok (.bool false) := by
  have htyped (v : Value) (hv : c.Notes ctx limit v) : v.WellTyped :=
    follows_of_noted h.starts_types hv
  refine ⟨fun v hv => ⟨htyped v hv, fun coll hcoll => ?_⟩, fun _ _ _ => lists_of_collectItems,
    fun v w hv hw hitems => ?_⟩
  · exact Coll.lossless (Coll.eq_toValue_of_ofValue? hcoll ▸ htyped v hv)
  · obtain rfl := Value.eq_of_itemized (htyped v hv) (htyped w hw) hitems
    simp [CompareOp.apply, sameValues]

end Condition

/-- The script that filters starts from well typed values.  It comes across the one item that it
keeps, and counts no other. -/
theorem Condition.wellTyped_of_noted_runsVariable :
    runsVariable.Embeds Value.WellTyped countingContext ∧
    runsVariable.Notes countingContext 1000 (.seq .int [.int 2]) ∧
    (Value.seq .int [.int 2]).WellTyped ∧ (Coll.values .int [.int 2]).Lossless := by
  have hembeds : runsVariable.Embeds Value.WellTyped countingContext :=
    ⟨List.forall_mem_nil _, by rintro _ ⟨⟩ v hv; simp [Expr.nodes] at hv, List.forall_mem_nil _,
      by decide⟩
  have hnoted : runsVariable.Notes countingContext 1000 (.seq .int [.int 2]) := by decide +kernel
  obtain ⟨htyped, hlossless⟩ := (wellTyped_of_noted hembeds 1000).1 _ hnoted
  exact ⟨hembeds, hnoted, htyped, hlossless _ rfl⟩

end Covenant

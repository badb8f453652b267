/-
  LISTWISE — operations on collections are operations on lists.

  A collection is a byte string or a list of values, and every operation on collections has to do
  with both forms: with signed bytes where a flat string holds octets, with bounds that may be
  negative or past the end, with loops that end early.  Nothing of this can be seen.  For each
  operation there is one on the plain list of the items, said with the functions that lists have
  anyway, and the node does what that operation does: it has the same value, the same failure and
  the same cost, from whatever meter it starts.

  1. **Operations on lists** — `itemOf`, `between`, and the loops `LoopOp.onItems`.
  2. **Nodes** — a node that takes a collection apart is one that takes its items apart, when the
     rest of the two agrees on the collections that turn up (`enter_items`).
  3. **Items and slices** — for every index and all bounds.
  4. **Loops** — the evaluator's own recursions are those of lists, and a map never meets a result
     of another type than the one it collects.
  5. **`Expr.listwise`** — the statement for all nodes that take a collection apart.
-/
import Covenant.Proofs.Reduction.Limit
import Covenant.Proofs.Reduction.Scripts
import Covenant.Proofs.Script.Everywhere
import Covenant.Proofs.Suite.Residues

namespace Covenant

/-! ## Operations on lists -/

/-- The items of a value that has to be a collection, with their type. -/
def Value.asItems (v : Value) : EvalM (ValueType × List Value) := do
  let c ← v.asColl
  return (c.itemType, c.toList)

/-- The collection of some items in the form that their type calls for: bytes are flat. -/
def Value.ofItems (t : ValueType) (xs : List Value) : Value := (Coll.ofList t xs).toValue

/-- A collection of items of one type, in the form that this type calls for. -/
def Value.Canonical (v : Value) : Prop :=
  ∃ t xs, (∀ x ∈ xs, x.type = t) ∧ v = Value.ofItems t xs

/-- The item at an index; there is none at a negative one. -/
def itemOf (xs : List Value) (i : Int32) : Option Value :=
  if 0 ≤ i.toInt then xs[i.toInt.toNat]? else none

/-- A bound brought between zero and `n`. -/
def bounded (i : Int32) (n : Nat) : Nat := (max 0 (min i.toInt n)).toNat

/-- The items from a lower bound up to but not including an upper one. -/
def between (xs : List Value) (lower upper : Int32) : List Value :=
  (xs.take (bounded upper xs.length)).drop (bounded lower xs.length)

/-- A predicate that costs the price of an item each time it is asked. -/
def paid (p : Value → EvalM Bool) (x : Value) : EvalM Bool := do
  EvalM.chargeItems 1
  p x

/-- A loop over a list of items of type `t`. -/
def LoopOp.onItems (sig : Signature) (body : Scope → EvalM Value) (sc : Scope) (t : ValueType)
    (xs : List Value) : LoopOp → EvalM Value
  | .map => do
    EvalM.chargeItems xs.length
    return .ofItems sig.result (← xs.mapM (applyFunction sig body sc))
  | .filter => do
    EvalM.chargeItems xs.length
    return .ofItems t (← xs.filterM (applyPredicate sig body sc))
  | .exists => do return .bool (← xs.anyM (paid (applyPredicate sig body sc)))
  | .forAll => do return .bool (← xs.allM (paid (applyPredicate sig body sc)))

/-- A slice that looks whether its range is one of the collection, and panics if it is not. -/
def slicedOr (panic : EvalM Value) (c : Coll) (lower upper : Int32) : EvalM Value := do
  let upper := clamp upper c.size
  let lower := min (clamp lower c.size) upper
  EvalM.chargeItems (upper - lower)
  if c.inRange lower upper then return (c.slice lower upper).toValue else panic

/-! ## Nodes -/

/-- A collection and its items are found in the same values. -/
theorem Value.asColl_bind_eq {β : Type} {v : Value} {f : Coll → EvalM β}
    {g : ValueType × List Value → EvalM β}
    (h : ∀ c, v = c.toValue → f c = g (c.itemType, c.toList)) :
    (v.asColl >>= f) = (v.asItems >>= g) := by
  rw [asItems, bind_assoc]
  refine (v.finds_asColl.yields fun _ h => h).bind_congr fun c hc => ?_
  rw [pure_bind]
  exact h c hc

/-- A node that takes a collection apart is one that takes its items apart. -/
theorem enter_items {sc : Scope} {op : Opcode} {x : Scope → EvalM Value} {Q : Value → Prop}
    (hx : Yields (x sc.deeper) Q) {f : Scope → Coll → EvalM Value}
    {g : Scope → ValueType × List Value → EvalM Value}
    (h : ∀ c : Coll, Q c.toValue → f sc.deeper c = g sc.deeper (c.itemType, c.toList)) :
    enter sc op (fun sc => do f sc (← (← x sc).asColl)) =
      enter sc op (fun sc => do g sc (← (← x sc).asItems)) := by
  refine enter_congr (hx.bind_congr fun v hv => Value.asColl_bind_eq fun c hc => ?_)
  subst hc
  exact h c hv

/-- A node over a collection yields what it runs yields for the collections that turn up. -/
theorem Yields.enter_coll {sc : Scope} {op : Opcode} {x : Scope → EvalM Value} {Q R : Value → Prop}
    (hx : Yields (x sc.deeper) Q) {f : Scope → Coll → EvalM Value}
    (h : ∀ c : Coll, Q c.toValue → Yields (f sc.deeper c) R) :
    Yields (Covenant.enter sc op (fun sc => do f sc (← (← x sc).asColl))) R := by
  refine .enter (.bind hx fun v hv => .bind (v.finds_asColl.yields fun _ h => h) fun c hc => ?_)
  subst hc
  exact h c hv

/-! ## Items and slices -/

theorem clamp_eq (i : Int32) (n : Nat) : clamp i n = bounded i n := by
  rw [clamp, bounded]
  omega

theorem length_between (xs : List Value) (lower upper : Int32) :
    (between xs lower upper).length = bounded upper xs.length - bounded lower xs.length := by
  have hupper : bounded upper xs.length ≤ xs.length := by
    rw [bounded]
    omega
  rw [between, List.length_drop, List.length_take, Nat.min_eq_left hupper]

theorem itemAt?_eq (c : Coll) (i : Int32) : itemAt? c i = itemOf c.toList i := by
  rw [itemAt?, itemOf, Coll.get?_eq]
  by_cases h : i.toInt < 0
  · rw [if_pos h, if_neg (Int.not_le.2 h)]
  · rw [if_neg h, if_pos (Int.not_lt.1 h)]

/-- The bounds of a slice are those of a range. -/
theorem Coll.inRange_clamp (c : Coll) (lower upper : Int32) :
    c.inRange (min (clamp lower c.size) (clamp upper c.size)) (clamp upper c.size) := by
  have hupper : clamp upper c.size ≤ c.size := Nat.min_le_right ..
  exact ⟨Nat.min_le_right .., hupper⟩

/-- A range of a well typed collection has the form that its items call for. -/
theorem Coll.slice_eq {c : Coll} (hc : c.toValue.WellTyped) (i j : Nat) :
    c.slice i j = ofList c.itemType ((c.toList.take j).drop i) := by
  cases c with
  | bytes b =>
    rw [ofList, itemType, if_pos rfl, toList, slice, ← List.map_take, ← List.map_drop,
      map_octet?_ofOctet]
  | values t vs => rw [ofList, itemType, if_neg hc.self.1, toList, slice]

/-- A lower bound above the upper one leaves no items, like one that is brought down to it. -/
theorem drop_take_min {α : Type} (xs : List α) (i j : Nat) :
    (xs.take j).drop (min i j) = (xs.take j).drop i := by
  rcases Nat.le_total i j with h | h
  · rw [Nat.min_eq_left h]
  · have hlen : (xs.take j).length ≤ j := List.length_take_le ..
    rw [Nat.min_eq_right h, List.drop_eq_nil_of_le hlen, List.drop_eq_nil_of_le (hlen.trans h)]

/-- **A slice** pays for the items between its bounds and is the collection of these. -/
theorem sliceColl_eq {c : Coll} (hc : c.toValue.WellTyped) (lower upper : Int32) :
    sliceColl c lower upper = (do
      EvalM.chargeItems (between c.toList lower upper).length
      return .ofItems c.itemType (between c.toList lower upper)) := by
  have hcost : clamp upper c.size - min (clamp lower c.size) (clamp upper c.size) =
      (between c.toList lower upper).length := by
    rw [length_between, Coll.length_toList, clamp_eq, clamp_eq]
    omega
  have hitems : (c.toList.take (clamp upper c.size)).drop
      (min (clamp lower c.size) (clamp upper c.size)) = between c.toList lower upper := by
    rw [drop_take_min, between, Coll.length_toList, clamp_eq, clamp_eq]
  simp only [sliceColl, hcost, Coll.slice_eq hc, hitems]
  rfl

/-- The check of a range that a slice does without would never fail. -/
theorem sliceColl_eq_slicedOr (panic : EvalM Value) (c : Coll) (lower upper : Int32) :
    sliceColl c lower upper = slicedOr panic c lower upper := by
  simp only [sliceColl, slicedOr, if_pos (c.inRange_clamp lower upper)]

/-! ## Loops -/

theorem mapItems_eq (f : Value → EvalM Value) (xs : List Value) : mapItems f xs = xs.mapM f := by
  induction xs with
  | nil => rfl
  | cons x xs ih => rw [mapItems, List.mapM_cons, ih]

/-- Lists collect what is kept newest first. -/
theorem filterAuxM_eq (p : Value → EvalM Bool) (xs kept : List Value) :
    xs.filterAuxM p kept = (do return (← filterItems p xs).reverse ++ kept) := by
  induction xs generalizing kept with
  | nil => rfl
  | cons x xs ih =>
    simp only [List.filterAuxM, filterItems, bind_assoc, pure_bind, ih]
    refine bind_congr fun b => bind_congr fun ws => ?_
    cases b with
    | true => simp
    | false => rfl

theorem filterItems_eq (p : Value → EvalM Bool) (xs : List Value) :
    filterItems p xs = xs.filterM p := by
  simp only [List.filterM, filterAuxM_eq, bind_assoc, pure_bind, List.append_nil,
    List.reverse_reverse, bind_pure]

/-- A search for an item that is accepted ends at the first one. -/
theorem findItem_true_eq (p : Value → EvalM Bool) (xs : List Value) :
    findItem p true xs = xs.anyM (paid p) := by
  induction xs with
  | nil => rfl
  | cons x xs ih =>
    simp only [findItem, paid, List.anyM_cons, bind_assoc, beq_true]
    exact bind_congr fun _ => bind_congr fun b => by rw [ih]

/-- A search for an item that is refused ends at the first one, and then not all are accepted. -/
theorem findItem_false_eq (p : Value → EvalM Bool) (xs : List Value) :
    (findItem p false xs >>= fun found => pure !found) = xs.allM (paid p) := by
  induction xs with
  | nil => rfl
  | cons x xs ih =>
    simp only [findItem, paid, List.allM_cons, bind_assoc]
    refine bind_congr fun _ => bind_congr fun b => ?_
    cases b with
    | true => exact ih
    | false => rfl

theorem foldItems_eq (f : Value → EvalM Value) (acc : Value) (xs : List Value) :
    foldItems f acc xs = xs.foldlM (fun acc x => f (.pair acc x)) acc := by
  induction xs generalizing acc with
  | nil => rfl
  | cons x xs ih => simp only [foldItems, List.foldlM_cons, ih]

section

variable {sig : Signature} {body : Scope → EvalM Value} {sc : Scope}

/-- A function yields values of the type it declares. -/
theorem yields_type_applyFunction (arg : Value) :
    Yields (applyFunction sig body sc arg) fun v => v.type = sig.result := by
  unfold applyFunction
  split
  · exact .check fun _ => .andThen fun _ => .andThen fun v => .check fun h => .pure (not_not.1 h)
  · exact .malformed _

/-- Called on each item, it yields items of this type. -/
theorem yields_types_mapM (xs : List Value) :
    Yields (xs.mapM (applyFunction sig body sc)) fun ws => ∀ w ∈ ws, w.type = sig.result :=
  .mapM fun x _ => yields_type_applyFunction x

/-- Items of one type become a collection, and without a failure. -/
theorem collectItems_eq {t : ValueType} {xs : List Value} (h : ∀ x ∈ xs, x.type = t) :
    collectItems t xs = pure (.ofItems t xs) := by
  have hnone : xs.find? (fun x => decide (x.type ≠ t)) = none := by simpa using h
  rw [collectItems, Value.collOf, hnone]
  rfl

/-- What a predicate accepts are items of the list. -/
theorem yields_subset_filterItems (p : Value → EvalM Bool) (xs : List Value) :
    Yields (filterItems p xs) fun ws => ws ⊆ xs := by
  induction xs with
  | nil => exact .pure (List.Subset.refl [])
  | cons x xs ih =>
    refine .andThen fun b => .bind ih fun ws hws => .pure ?_
    cases b with
    | true => exact List.cons_subset_cons x hws
    | false => exact List.subset_cons_of_subset x hws

/-- **A loop** over a collection is the loop over the list of its items. -/
theorem LoopOp.run_eq (op : LoopOp) (c : Coll) :
    op.run sig body sc c = op.onItems sig body sc c.itemType c.toList := by
  cases op with
  | map =>
    simp only [run, onItems, mapItems_eq, Coll.length_toList]
    exact bind_congr fun _ => (yields_types_mapM c.toList).bind_congr fun ws => collectItems_eq
  | filter =>
    simp only [run, onItems, filterItems_eq, Coll.length_toList]
    rfl
  | «exists» => simp only [run, onItems, findItem_true_eq]
  | forAll =>
    simp only [run, onItems, ← findItem_false_eq, bind_assoc, pure_bind]

end

/-! ## Nodes that take a collection apart -/

theorem Coll.canonical_ofItems {c : Coll} (hc : c.toValue.WellTyped) {xs : List Value}
    (h : xs ⊆ c.toList) : (Value.ofItems c.itemType xs).Canonical :=
  ⟨c.itemType, xs, fun x hx => type_of_mem hc x (h hx), rfl⟩

theorem Coll.yields_canonical_slice {c : Coll} (hc : c.toValue.WellTyped) (lower upper : Int32) :
    Yields (sliceColl c lower upper) Value.Canonical := by
  rw [sliceColl_eq hc]
  refine .andThen fun _ => .pure (canonical_ofItems hc ?_)
  exact List.Subset.trans (List.drop_subset ..) (List.take_subset ..)

theorem Coll.yields_canonical_map (c : Coll) (sig : Signature) (body : Scope → EvalM Value)
    (sc : Scope) : Yields (LoopOp.map.run sig body sc c) Value.Canonical := by
  rw [LoopOp.run_eq]
  exact .andThen fun _ => .bind (yields_types_mapM c.toList) fun ws hws =>
    .pure ⟨sig.result, ws, hws, rfl⟩

theorem Coll.yields_canonical_filter {c : Coll} (hc : c.toValue.WellTyped) (sig : Signature)
    (body : Scope → EvalM Value) (sc : Scope) :
    Yields (LoopOp.filter.run sig body sc c) Value.Canonical :=
  .andThen fun _ => .bind (yields_subset_filterItems _ _) fun _ hws =>
    .pure (canonical_ofItems hc hws)

section

variable [Suite] {script : Scope → UInt8 → ValueType → EvalM Value}

/-- Evaluated at `sc`, every node over the collection that `a` gives does what the operation on the
list of its items does. -/
structure Expr.Listwise (script : Scope → UInt8 → ValueType → EvalM Value) (sc : Scope)
    (a : Expr) : Prop where
  /-- The size is the number of items, where it is one of type `Int`. -/
  size : (Expr.unary .sizeOf a).evalWith script sc = enter sc (.unary .sizeOf) fun sc => do
    let (_, xs) ← (← a.evalWith script sc).asItems
    EvalM.lift (intOf xs.length)
  /-- An index gives the item, or a failure. -/
  item : ∀ i, (Expr.byIndex a i none).evalWith script sc = enter sc .byIndex fun sc => do
    let (_, xs) ← (← a.evalWith script sc).asItems
    let i ← (← i.evalWith script sc).asInt
    match itemOf xs i with
    | some v => return v
    | none => EvalM.failed .indexRange
  /-- Or else the default, which is evaluated only then. -/
  itemOrElse : ∀ i d, (Expr.byIndex a i (some d)).evalWith script sc =
    enter sc .byIndex fun sc => do
      let (_, xs) ← (← a.evalWith script sc).asItems
      let i ← (← i.evalWith script sc).asInt
      match itemOf xs i with
      | some v => return v
      | none => d.evalWith script sc
  /-- A slice is paid for by the item and gives the items between the bounds. -/
  slice : ∀ l u, (Expr.ternary .slice a l u).evalWith script sc =
    enter sc (.ternary .slice) fun sc => do
      let (t, xs) ← (← a.evalWith script sc).asItems
      let lower ← (← l.evalWith script sc).asInt
      let upper ← (← u.evalWith script sc).asInt
      EvalM.chargeItems (between xs lower upper).length
      return .ofItems t (between xs lower upper)
  /-- A slice never asks for a range that the collection does not have. -/
  slice_inRange : ∀ panic l u, (Expr.ternary .slice a l u).evalWith script sc =
    enter sc (.ternary .slice) fun sc => do
      let coll ← (← a.evalWith script sc).asColl
      let lower ← (← l.evalWith script sc).asInt
      let upper ← (← u.evalWith script sc).asInt
      slicedOr panic coll lower upper
  /-- Loops go through the list. -/
  loop : ∀ op sig body, (Expr.loop op a sig body).evalWith script sc =
    enter sc (.loop op) fun sc => do
      let (t, xs) ← (← a.evalWith script sc).asItems
      op.onItems sig (fun sc => body.evalWith script sc) sc t xs
  /-- So do folds, from left to right. -/
  fold : ∀ zero sig body, (Expr.fold a zero sig body).evalWith script sc =
    enter sc .fold fun sc => do
      let (_, xs) ← (← a.evalWith script sc).asItems
      let acc ← zero.evalWith script sc
      EvalM.chargeItems xs.length
      xs.foldlM (fun acc x =>
        applyFunction sig (fun sc => body.evalWith script sc) sc (.pair acc x)) acc
  /-- What comes out as a collection has the form that its item type calls for. -/
  canonical_slice : ∀ l u, Yields ((Expr.ternary .slice a l u).evalWith script sc) Value.Canonical
  canonical_map : ∀ sig body,
    Yields ((Expr.loop .map a sig body).evalWith script sc) Value.Canonical
  canonical_filter : ∀ sig body,
    Yields ((Expr.loop .filter a sig body).evalWith script sc) Value.Canonical

/-- **Collections behave like the lists of their items**, in either form, for all bounds, all
indices and all functions, wherever the collection comes from. -/
theorem Expr.listwise {sc : Scope} {a : Expr}
    (ha : Yields (a.evalWith script sc.deeper) Value.WellTyped) : a.Listwise script sc where
  size := by
    rw [Expr.evalWith]
    refine enter_items ha fun c _ => ?_
    -- the two forms of a collection have a length each, and both are that of the list
    rw [← Coll.length_toList]
  item i := by
    rw [Expr.evalWith]
    refine enter_items ha fun c _ => bind_congr fun v => bind_congr fun j => ?_
    cases hitem : itemOf c.toList j <;> simp only [itemAt?_eq, hitem]
  itemOrElse i d := by
    rw [Expr.evalWith]
    refine enter_items ha fun c _ => bind_congr fun v => bind_congr fun j => ?_
    cases hitem : itemOf c.toList j <;> simp only [itemAt?_eq, hitem]
  slice l u := by
    rw [Expr.evalWith]
    refine enter_items ha fun c hc => ?_
    -- here the items must be of the collection's type, or the octets of a slice could not be told
    simp only [sliceColl_eq hc]
  slice_inRange panic l u := by
    rw [Expr.evalWith]
    simp only [sliceColl_eq_slicedOr panic]
  loop op sig body := by
    rw [Expr.evalWith]
    refine enter_items ha fun c _ => ?_
    exact op.run_eq c
  fold zero sig body := by
    rw [Expr.evalWith]
    refine enter_items ha fun c _ => ?_
    simp only [foldItems_eq, Coll.length_toList]
  canonical_slice l u := by
    rw [Expr.evalWith]
    refine .enter_coll ha fun c hc => .andThen fun _ => .andThen fun lower => .andThen fun _ =>
      .andThen fun upper => ?_
    exact Coll.yields_canonical_slice hc lower upper
  canonical_map sig body := by
    rw [Expr.evalWith]
    exact .enter_coll ha fun c _ => c.yields_canonical_map sig _ _
  canonical_filter sig body := by
    rw [Expr.evalWith]
    exact .enter_coll ha fun c hc => Coll.yields_canonical_filter hc sig _ _

end

/-! ## Signed octets -/

section

attribute [local instance] Suite.residues

/-- Octets of which the first is negative as a byte. -/
def signedOctets : Expr := .const (.bytes [0x80, 0x7f, 0x01])

/-- Where they are looked at. -/
def Scope.blank : Scope := ⟨.blank, [], [], 0, 0⟩

/-- The function that makes an octet a large number. -/
def enlarged : Signature × Expr := (⟨[(1, .byte)], .bigInt⟩, .unary .toBigInt (.use 1))

/-- The function that adds an octet to a sum. -/
def added : Signature × Expr :=
  (⟨[(1, .tuple [.bigInt, .byte])], .bigInt⟩,
    .binary (.arith .plus) (.selectField (.use 1) 1) (.unary .toBigInt (.selectField (.use 1) 2)))

/-- A slice of the octets from a negative bound on, the first of them as an item, all of them as
numbers, and their sum. -/
theorem listwise_signedOctets :
    Yields (signedOctets.evalWith runScript Scope.blank.deeper) Value.WellTyped ∧
    signedOctets.Listwise runScript .blank ∧
    (((Expr.ternary .slice signedOctets (.const (.int (-5))) (.const (.int 2))).eval
      .blank).run (Meter.new 1000)).1 = .ok (.bytes [0x80, 0x7f]) ∧
    (((Expr.byIndex signedOctets (.const (.int 0)) none).eval
      .blank).run (Meter.new 1000)).1 = .ok (.byte (-128)) ∧
    (((Expr.loop .map signedOctets enlarged.1 enlarged.2).eval .blank).run (Meter.new 1000)).1 =
      .ok (.seq .bigInt [.bigInt (-128), .bigInt 127, .bigInt 1]) ∧
    (((Expr.fold signedOctets (.const (.bigInt 0)) added.1 added.2).eval
      .blank).run (Meter.new 1000)).1 = .ok (.bigInt 0) := by
  have hoctets : Yields (signedOctets.evalWith runScript Scope.blank.deeper) Value.WellTyped := by
    rw [signedOctets, Expr.evalWith]
    refine .enter (.pure ?_)
    decide
  exact ⟨hoctets, Expr.listwise hoctets, rfl, rfl, by decide +kernel, by decide +kernel⟩

end

end Covenant

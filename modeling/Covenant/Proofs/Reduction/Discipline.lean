/-
  DISCIPLINE — rules for values that no operation of the language breaks.

  There are few ways to come by a value.  An operation computes an atom or a byte string; it takes a
  value apart; it makes a collection of items of one type, leaves items of a collection out, wraps an
  option around a value of a known type, pairs two values, or makes a tuple of as many as its
  expression lists.  A rule that holds of what each of these ways leads to holds of every value that
  an evaluation comes across, as long as it holds of those it starts from.

  1. **`Discipline`** — a rule for single values, with the types that expressions may name and the
     lengths of tuples that they may build.  A value follows it when all values inside it do.
  2. **`Keeps D x Q`** — a run of `x` notes only values that follow the rule, and what it returns
     satisfies `Q`.  One lemma for each operation.
-/
import Covenant.Proofs.Reduction.Scripts
import Covenant.Proofs.Script.Everywhere
import Covenant.Proofs.Script.Taking

namespace Covenant

/-! ## Disciplines -/

/-- The types that the language names by itself. -/
def ValueType.builtIn : List ValueType := [.int, .box, .header, Token.valueType]

/-- A rule for values that every way to make one keeps, when expressions name only some types and
build tuples of some lengths only. -/
structure Discipline where
  rule : Value → Prop
  names : ValueType → Prop
  builds : Nat → Prop
  builtIn : ∀ t ∈ ValueType.builtIn, names t
  atom : ∀ a, rule (.atom a)
  box : ∀ b, rule (.box b)
  bytes : ∀ b, rule (.bytes b)
  seq : ∀ t vs, names t → t ≠ .byte → (∀ v ∈ vs, v.type = t) → rule (.seq t vs)
  /-- Items may be left out. -/
  subset : ∀ t vs ws, rule (.seq t vs) → ws ⊆ vs → rule (.seq t ws)
  option : ∀ t o, names t → (∀ v ∈ o, v.type = t) → rule (.option t o)
  pair : ∀ v w, rule (.pair v w)
  tuple : ∀ vs, builds vs.length → vs.length ≤ maxTupleArity → rule (.tuple vs)

variable {D : Discipline}

/-- The value and all values inside it follow the rule. -/
abbrev Value.Follows (D : Discipline) (v : Value) : Prop := v.Everywhere D.rule

/-- A node of an expression names only types that it may name, and if it builds a tuple, then one of
a length that it may have. -/
structure Discipline.Permits (D : Discipline) (n : Expr) : Prop where
  types : ∀ t ∈ n.types, D.names t
  tuple : ∀ es, n = .variadic .tuple es → D.builds es.length

/-- Besides, the values in the node follow the rule. -/
structure Discipline.Allows (D : Discipline) (n : Expr) : Prop extends D.Permits n where
  values : ∀ v ∈ n.values, v.Follows D

/-- The value that a step notes. -/
def Step.value? : Step → Option Value
  | .value v _ => some v
  | _ => none

/-- All values in the journal follow the rule. -/
def Meter.Follows (D : Discipline) (m : Meter) : Prop :=
  ∀ v spent, .value v spent ∈ m.journal → v.Follows D

theorem Meter.Follows.note {m : Meter} (hm : m.Follows D) {s : Step}
    (hs : ∀ v spent, s = .value v spent → v.Follows D) : (m.note s).Follows D := by
  intro v spent hv
  rcases List.mem_cons.1 hv with heq | hv
  · exact hs v spent heq.symm
  · exact hm v spent hv

/-- A run notes only values that follow the rule, and what it returns satisfies `Q`. -/
def Keeps (D : Discipline) {α : Type} (x : EvalM α) (Q : α → Prop) : Prop :=
  ∀ m : Meter, m.Follows D → (x.run m).2.Follows D ∧ ∀ a, (x.run m).1 = .ok a → Q a

namespace Keeps

variable {α β : Type} {Q : α → Prop} {R : β → Prop}

theorem pure {a : α} (h : Q a) : Keeps D (Pure.pure a) Q := by
  refine fun m hm => ⟨hm, fun b hb => ?_⟩
  cases hb
  exact h

theorem fail (e : ReductionError) : Keeps D (throw e : EvalM α) Q := fun _ hm => ⟨hm, nofun⟩

theorem malformed (d : ConditionDefect) : Keeps D (EvalM.malformed d : EvalM α) Q := fail _

theorem failed (f : RuntimeFailure) : Keeps D (EvalM.failed f : EvalM α) Q := fail _

/-- Nothing goes on after a failure. -/
theorem failThen (e : ReductionError) (f : α → EvalM β) :
    Keeps D ((throw e : EvalM α) >>= f) R := fail e

theorem bind {x : EvalM α} {f : α → EvalM β} (hx : Keeps D x Q)
    (hf : ∀ a, Q a → Keeps D (f a) R) : Keeps D (x >>= f) R := by
  intro m hm
  obtain ⟨hnoted, hq⟩ := hx m hm
  rw [EvalM.run_bind]
  rcases hrun : x.run m with ⟨r, m'⟩
  rw [hrun] at hnoted hq
  cases r with
  | error e => exact ⟨hnoted, by simp⟩
  | ok a => exact hf a (hq a rfl) m' hnoted

theorem imp {x : EvalM α} (hx : Keeps D x Q) {Q' : α → Prop} (h : ∀ a, Q a → Q' a) :
    Keeps D x Q' :=
  fun m hm => ⟨(hx m hm).1, fun a ha => h a ((hx m hm).2 a ha)⟩

theorem lift {r : Except ReductionError α} (h : ∀ a, r = .ok a → Q a) :
    Keeps D (EvalM.lift r) Q := by
  cases r with
  | ok a => exact pure (h a rfl)
  | error e => exact fail e

/-- A check in front of a computation, which knows its outcome. -/
theorem check {c : Prop} [Decidable c] {d : ConditionDefect} {y : EvalM α}
    (hy : ¬c → Keeps D y Q) :
    Keeps D (if c then EvalM.malformed d >>= fun _ : PUnit => y else y) Q := by
  split
  · exact failThen _ _
  · exact hy ‹_›

theorem ite {c : Prop} [Decidable c] {x y : EvalM α} (hx : Keeps D x Q) (hy : Keeps D y Q) :
    Keeps D (if c then x else y) Q := by
  split
  · exact hx
  · exact hy

theorem charge (cost : Nat) : Keeps D (EvalM.charge cost) fun _ => True := by
  intro m hm
  rw [EvalM.run_charge]
  split
  · exact ⟨hm, nofun⟩
  · exact ⟨hm, fun _ _ => trivial⟩

/-- A step that is not a value may be noted. -/
theorem note {s : Step} (hs : ∀ v spent, s ≠ .value v spent) :
    Keeps D (EvalM.note s) fun _ => True :=
  fun _ hm => ⟨hm.note fun v spent h => absurd h (hs v spent), fun _ _ => trivial⟩

theorem noteValue {v : Value} (hv : v.Follows D) : Keeps D (EvalM.noteValue v) fun _ => True := by
  refine fun m hm => ⟨hm.note ?_, fun _ _ => trivial⟩
  rintro _ _ ⟨⟩
  exact hv

theorem chargeItems (n : Nat) : Keeps D (EvalM.chargeItems n) fun _ => True :=
  .bind (charge _) fun _ _ => note (by simp)

end Keeps

/-! ## What an evaluation starts from -/

/-- Everything that a condition can see follows the rule. -/
structure Context.Follows (D : Discipline) (c : Context) : Prop where
  inputs : ∀ b ∈ c.tx.inputs, (Value.box b).Follows D
  dataInputs : ∀ b ∈ c.tx.dataInputs, (Value.box b).Follows D
  outputs : ∀ b ∈ c.tx.outputs, (Value.box b).Follows D
  extension : ∀ e ∈ c.extension.entries, e.2.Follows D

/-- Everything that an expression can refer to follows the rule. -/
structure Scope.Follows (D : Discipline) (sc : Scope) : Prop where
  context : sc.context.Follows D
  constants : ∀ v ∈ sc.constants, v.Follows D
  bindings : ∀ b ∈ sc.bindings, b.2.Follows D

theorem Scope.Follows.deeper {sc : Scope} (h : sc.Follows D) : sc.deeper.Follows D :=
  ⟨h.context, h.constants, h.bindings⟩

theorem Scope.Follows.bind {sc : Scope} (h : sc.Follows D) (id : UInt32) {v : Value}
    (hv : v.Follows D) : (sc.bind id v).Follows D :=
  ⟨h.context, h.constants, List.forall_mem_cons.2 ⟨hv, h.bindings⟩⟩

/-- Only the context is visible in the scope of a script. -/
theorem Context.Follows.isolated {sc : Scope} (h : sc.context.Follows D) : sc.isolated.Follows D :=
  ⟨h, List.forall_mem_nil _, List.forall_mem_nil _⟩

theorem Context.Follows.variable {c : Context} (h : c.Follows D) {id : UInt8} :
    ∀ v ∈ c.extension.get? id, v.Follows D :=
  fun _ hv => h.extension _ (mem_of_lookup hv)

theorem EvalM.Finds.keeps {α : Type} {Q : α → Prop} {x : EvalM α} (h : EvalM.Finds Q x) :
    Keeps D x Q := by
  cases h with
  | found h => exact .pure ((h _).2 rfl)
  | missing => exact .malformed _

/-! ## Single values -/

theorem Value.follows_atom (a : Atom) : (atom a).Follows D := everywhere_atom.2 (D.atom a)

theorem Value.follows_bytes (b : Bytes) : (bytes b).Follows D := everywhere_bytes.2 (D.bytes b)

theorem Value.follows_none {t : ValueType} (ht : D.names t) : (option t none).Follows D :=
  everywhere_option.2 ⟨D.option t none ht (by simp), by simp⟩

theorem Value.Computed.follows_any {v : Value} (h : v.Computed) : v.Follows D := by
  cases h <;> exact follows_atom _

namespace Coll

variable {c : Coll} (hc : c.toValue.Follows D)
include hc

/-- The items of a collection are inside it. -/
theorem follows_of_mem : ∀ v ∈ c.toList, v.Follows D := by
  cases c with
  | bytes b => exact List.forall_mem_map.2 fun x _ => Value.follows_atom _
  | values t vs => exact (Value.everywhere_seq.1 hc).2

/-- A collection of some of the items of another one. -/
theorem follows_ofList {vs : List Value} (hvs : vs ⊆ c.toList) :
    (ofList c.itemType vs).toValue.Follows D := by
  have hitems : ∀ v ∈ vs, v.Follows D := fun v hv => follows_of_mem hc v (hvs hv)
  unfold ofList
  split
  · exact Value.follows_bytes _
  · rename_i hflat
    cases c with
    | bytes b => exact absurd rfl hflat
    | values t ws => exact Value.everywhere_seq.2 ⟨D.subset t ws vs hc.self hvs, hitems⟩

theorem follows_slice (i j : Nat) : (c.slice i j).toValue.Follows D := by
  cases c with
  | bytes b => exact Value.follows_bytes _
  | values t vs =>
    have hsub : (vs.take j).drop i ⊆ vs :=
      fun v hv => List.mem_of_mem_take (List.mem_of_mem_drop hv)
    obtain ⟨hrule, hitems⟩ := Value.everywhere_seq.1 hc
    exact Value.everywhere_seq.2 ⟨D.subset t vs _ hrule hsub, fun v hv => hitems v (hsub hv)⟩

theorem follows_itemAt? {i : Int32} : ∀ v ∈ itemAt? c i, v.Follows D := by
  intro v hv
  unfold itemAt? at hv
  split at hv
  · cases hv
  · rw [get?_eq] at hv
    exact follows_of_mem hc v (List.mem_of_getElem? hv)

end Coll

section Fields

variable {v : Value}

theorem RecordField.Reading.follows_any {x : Value} (h : RecordField.Reading x v) :
    v.Follows D := by
  -- optional numbers name their type even when they are missing
  have hint : D.names .int := D.builtIn _ (by simp [ValueType.builtIn])
  cases h with
  | computed h => exact h.follows_any
  | octets b => exact Value.follows_bytes _
  | stateRoot | minerKey | powOnetimeKey | nextMinerKey => exact Value.follows_atom _
  | absent => exact Value.follows_none hint
  | present n =>
    refine Value.everywhere_option.2 ⟨D.option _ _ hint ?_, ?_⟩
    · simp [Value.int, Value.type, Atom.type]
    · simpa using Value.follows_atom _

/-- A token is a pair of its type. -/
theorem follows_tokens {ts : List Token} {vs : List Value} (h : ts.mapM Token.toValue = .ok vs) :
    ∀ v ∈ vs, v.type = Token.valueType ∧ v.Follows D := by
  intro v hv
  obtain ⟨t, -, ht⟩ := (Outcome.spec_of_mapM h).2 v hv
  obtain ⟨n, rfl⟩ := t.exists_of_toValue ht
  exact ⟨rfl, Value.everywhere_pair.2
    ⟨D.pair _ _, Value.follows_bytes _, Value.follows_atom _⟩⟩

/-- What is read at a type is an option around what was there. -/
theorem follows_readTyped {defect : ConditionDefect} {t : ValueType} (ht : D.names t)
    {o : Option Value} (ho : ∀ w ∈ o, w.Follows D) (hv : readTyped defect t o = .ok v) :
    v.Follows D := by
  obtain ⟨htype, rfl⟩ := readTyped_eq_ok.1 hv
  exact Value.everywhere_option.2 ⟨D.option _ _ ht htype, ho⟩

end Fields

/-! ## Operations on values -/

/-- A collection of boxes or headers. -/
theorem follows_seq {t : ValueType} (ht : t ∈ ValueType.builtIn) {vs : List Value}
    (htype : ∀ v ∈ vs, v.type = t) (hvs : ∀ v ∈ vs, v.Follows D) : (Value.seq t vs).Follows D := by
  have hflat : t ≠ .byte := by
    rintro rfl
    revert ht
    decide
  exact Value.everywhere_seq.2 ⟨D.seq t vs (D.builtIn t ht) hflat htype, hvs⟩

theorem keeps_boxColl {bs : List Box} (h : ∀ b ∈ bs, (Value.box b).Follows D) :
    Keeps D (boxColl bs) (Value.Follows D) :=
  .bind (.chargeItems _) fun _ _ => .pure (follows_seq (by simp [ValueType.builtIn])
    (List.forall_mem_map.2 fun _ _ => rfl) (List.forall_mem_map.2 h))

theorem ContextField.keeps_read {c : Context} (hc : c.Follows D) (f : ContextField) :
    Keeps D (f.read c) (Value.Follows D) := by
  cases f with
  | height => exact .lift fun v hv => (computed_intOf hv).follows_any
  | selfBox =>
    simp only [ContextField.read]
    split
    · rename_i b hb
      exact .pure (hc.inputs b (List.mem_of_getElem? hb))
    · exact .fail _
  | inputs => exact keeps_boxColl hc.inputs
  | outputs => exact keeps_boxColl hc.outputs
  | dataInputs => exact keeps_boxColl hc.dataInputs
  | headers =>
    exact .bind (.chargeItems _) fun _ _ => .pure (follows_seq (by simp [ValueType.builtIn])
      (List.forall_mem_map.2 fun _ _ => rfl)
      (List.forall_mem_map.2 fun _ _ => Value.follows_atom _))
  | preHeader => exact .pure (Value.follows_atom _)
  | minerKey | stateDigest => exact .pure (Value.follows_bytes _)

theorem keeps_boolItems (v : Value) : Keeps D (boolItems v) fun _ => True := by
  refine .bind v.finds_asColl.keeps fun c _ => .bind (.chargeItems _) fun _ _ => ?_
  split
  · exact .pure trivial
  · exact .malformed _

theorem keeps_hashBytes (hash : Bytes → Octets 32) (v : Value) :
    Keeps D (hashBytes hash v) (Value.Follows D) :=
  .bind v.finds_asBytes.keeps fun _ _ => .bind (.charge _) fun _ _ => .pure (Value.follows_bytes _)

theorem keeps_selectItem {v : Value} (hv : v.Follows D) (number : UInt8) :
    Keeps D (selectItem v number) (Value.Follows D) := by
  refine (finds_selectItem v number).keeps.imp fun w ⟨vs, htuple, i, _, hw⟩ => ?_
  subst htuple
  exact (Value.everywhere_tuple.1 hv).2 w (List.mem_of_getElem? hw)

theorem keeps_sliceColl {c : Coll} (hc : c.toValue.Follows D) (lower upper : Int32) :
    Keeps D (sliceColl c lower upper) (Value.Follows D) :=
  .bind (.chargeItems _) fun _ _ => .pure (Coll.follows_slice hc _ _)

theorem keeps_atLeastOf (k : Int32) (c : Coll) : Keeps D (atLeastOf k c) (Value.Follows D) :=
  .bind (finds_propositionItems c).keeps fun _ _ => .check fun _ => .bind (.chargeItems _) fun _ _ =>
    .pure (Value.follows_atom _)

/-- Items become a collection only when they all have the type. -/
theorem keeps_collectItems {t : ValueType} (ht : D.names t) {vs : List Value}
    (h : ∀ v ∈ vs, v.Follows D) : Keeps D (collectItems t vs) (Value.Follows D) := by
  refine (finds_collectItems t vs).keeps.imp fun w ⟨htype, hw⟩ => ?_
  subst hw
  unfold Coll.ofList
  split
  · exact Value.follows_bytes _
  · exact Value.everywhere_seq.2 ⟨D.seq t vs ht ‹_› htype, h⟩

section

variable [Suite]

theorem Box.keeps_read (b : Box) (f : BoxField) : Keeps D (b.read f) (Value.Follows D) := by
  cases f with
  | value => exact .lift fun v hv => (computed_longOf hv).follows_any
  | creationHeight => exact .lift fun v hv => (computed_intOf hv).follows_any
  | scriptBytes | id => exact .pure (Value.follows_bytes _)
  | tokens =>
    refine .bind (.chargeItems _) fun _ _ => .bind (.lift fun vs hvs => hvs) fun vs hvs =>
      .pure (follows_seq (by simp [ValueType.builtIn]) ?_ ?_)
    · exact fun v hv => (follows_tokens (D := D) hvs v hv).1
    · exact fun v hv => (follows_tokens hvs v hv).2

theorem UnaryOp.keeps_apply {v : Value} (hv : v.Follows D) (op : UnaryOp) :
    Keeps D (op.apply v) (Value.Follows D) := by
  cases op with
  | extract f => exact .bind v.finds_asBox.keeps fun b _ => b.keeps_read f
  | negate => exact .lift fun w hw => (computed_negate hw).follows_any
  | toBigInt => exact .lift fun w hw => (computed_toBigInt hw).follows_any
  | not | boolToSigma => exact .bind v.finds_asBool.keeps fun _ _ => .pure (Value.follows_atom _)
  | allOf | anyOf => exact .bind (keeps_boolItems v) fun _ _ => .pure (Value.follows_atom _)
  | optionIsDefined => exact .bind v.finds_asOption.keeps fun _ _ => .pure (Value.follows_atom _)
  | sizeOf =>
    exact .bind v.finds_asColl.keeps fun _ _ => .lift fun w hw => (computed_intOf hw).follows_any
  | optionGet =>
    refine .bind v.finds_asOption.keeps fun o ho => ?_
    -- what was inside the option keeps what the option kept
    obtain ⟨t, rfl⟩ := ho
    split
    · exact .pure ((Value.everywhere_option.1 hv).2 _ rfl)
    · exact .failed _
  | sha256 | blake3 => exact keeps_hashBytes _ v
  | proveDlog => exact .bind v.finds_asPoint.keeps fun _ _ => .pure (Value.follows_atom _)

end

/-! ## Functions applied to items -/

section Functions

variable {sig : Signature} {body : Scope → EvalM Value}
  (hbody : ∀ sc, sc.Follows D → Keeps D (body sc) (Value.Follows D)) {sc : Scope}
  (hsc : sc.Follows D)
include hbody hsc

theorem keeps_applyFunction {arg : Value} (harg : arg.Follows D) :
    Keeps D (applyFunction sig body sc arg) (Value.Follows D) := by
  unfold applyFunction
  split
  · exact .check fun _ => .bind (.noteValue harg) fun _ _ => .bind (hbody _ (hsc.bind _ harg))
      fun v hv => .check fun _ => .pure hv
  · exact .malformed _

theorem keeps_applyPredicate {arg : Value} (harg : arg.Follows D) :
    Keeps D (applyPredicate sig body sc arg) fun _ => True := by
  refine .bind (keeps_applyFunction hbody hsc harg) fun v _ => ?_
  split
  · exact .pure trivial
  · exact .malformed _

theorem keeps_mapItems {vs : List Value} (h : ∀ v ∈ vs, v.Follows D) :
    Keeps D (mapItems (applyFunction sig body sc) vs) fun ws => ∀ w ∈ ws, w.Follows D := by
  induction vs with
  | nil => exact .pure (by simp)
  | cons v vs ih =>
    obtain ⟨hv, hvs⟩ := List.forall_mem_cons.1 h
    exact .bind (keeps_applyFunction hbody hsc hv) fun w hw => .bind (ih hvs) fun ws hws =>
      .pure (List.forall_mem_cons.2 ⟨hw, hws⟩)

/-- What a predicate accepts was there before. -/
theorem keeps_filterItems {vs : List Value} (h : ∀ v ∈ vs, v.Follows D) :
    Keeps D (filterItems (applyPredicate sig body sc) vs) (· ⊆ vs) := by
  induction vs with
  | nil => exact .pure (List.Subset.refl _)
  | cons v vs ih =>
    obtain ⟨hv, hvs⟩ := List.forall_mem_cons.1 h
    refine .bind (keeps_applyPredicate hbody hsc hv) fun b _ => .bind (ih hvs) fun ws hws =>
      .pure ?_
    -- whether an item stays or goes, the items are still among those there were
    split
    · exact List.cons_subset_cons v hws
    · exact List.subset_cons_of_subset v hws

theorem keeps_findItem (wanted : Bool) {vs : List Value} (h : ∀ v ∈ vs, v.Follows D) :
    Keeps D (findItem (applyPredicate sig body sc) wanted vs) fun _ => True := by
  induction vs with
  | nil => exact .pure trivial
  | cons v vs ih =>
    obtain ⟨hv, hvs⟩ := List.forall_mem_cons.1 h
    exact .bind (.chargeItems 1) fun _ _ => .bind (keeps_applyPredicate hbody hsc hv) fun _ _ =>
      .ite (.pure trivial) (ih hvs)

theorem keeps_foldItems {acc : Value} (hacc : acc.Follows D) {vs : List Value}
    (h : ∀ v ∈ vs, v.Follows D) :
    Keeps D (foldItems (applyFunction sig body sc) acc vs) (Value.Follows D) := by
  induction vs generalizing acc with
  | nil => exact .pure hacc
  | cons v vs ih =>
    obtain ⟨hv, hvs⟩ := List.forall_mem_cons.1 h
    have hpair : (Value.pair acc v).Follows D :=
      Value.everywhere_pair.2 ⟨D.pair acc v, hacc, hv⟩
    exact .bind (keeps_applyFunction hbody hsc hpair) fun acc hacc => ih hacc hvs

theorem LoopOp.keeps_run (op : LoopOp) (hresult : D.names sig.result) {c : Coll}
    (hc : c.toValue.Follows D) : Keeps D (op.run sig body sc c) (Value.Follows D) := by
  -- the items come from the collection, and only a map makes new ones
  have hitems := Coll.follows_of_mem hc
  cases op with
  | map =>
    exact .bind (.chargeItems _) fun _ _ => .bind (keeps_mapItems hbody hsc hitems) fun ws hws =>
      keeps_collectItems hresult hws
  | filter =>
    exact .bind (.chargeItems _) fun _ _ => .bind (keeps_filterItems hbody hsc hitems)
      fun ws hws => .pure (Coll.follows_ofList hc hws)
  | «exists» | forAll =>
    exact .bind (keeps_findItem hbody hsc _ hitems) fun _ _ => .pure (Value.follows_atom _)

end Functions

end Covenant

/-
  READINGS — what the checked steps of a reduction return.

  Several steps look at a value or at octets and either fail or return something simple.  What it
  means that such a step succeeds is said here once.  The atoms that are kept, the types, and the
  sizes are then read off these statements, and the steps are not opened again.

  1. **Records** — a field of a header, a pre-header or a state tree is a number, octets, or one of
     the few atoms that the record holds (`RecordField.Reading`).
  2. **Tokens** — each is a pair of its id and a number.
  3. **Types that are known** — an option or a collection is put together when its items have the
     type, and only then.
  4. **Kinds of values** — a look at a value finds the only thing of the kind that it can be, or the
     condition is malformed, though not for its depth (`EvalM.Finds`).
  5. **Items** — so are items of tuples, collections of one type, and propositions of a collection.
  6. **Scripts and reductions** — the other failures are only repackaged.
-/
import Covenant.Proofs.Reduction.Computed
import Covenant.Reduction.Reduce
import Mathlib.Data.List.Forall2

namespace Covenant

/-! ## Records -/

/-- What a field of the record `x` can be. -/
inductive RecordField.Reading : Value → Value → Prop
  | computed {x v : Value} (h : v.Computed) : Reading x v
  | octets {x : Value} {n : Nat} (b : Octets n) (h : n ≤ 33) : Reading x (.bytes b.1)
  | stateRoot (h : Header) : Reading (.header h) (.stateTree h.stateRoot)
  | minerKey (h : Header) : Reading (.header h) (.groupElement h.minerKey)
  | powOnetimeKey (h : Header) : Reading (.header h) (.groupElement h.powOnetimeKey)
  | nextMinerKey (h : PreHeader) : Reading (.preHeader h) (.groupElement h.minerKey)
  | absent {x : Value} : Reading x (.option .int none)
  | present {x : Value} (n : Int32) : Reading x (.option .int (some (.int n)))

open RecordField (Reading)

variable {v : Value}

theorem Header.reading_of_read {h : Header} {f : HeaderField} (hv : h.read f = .ok v) :
    Reading (.header h) v := by
  cases f with
  | timestamp | nBits => exact .computed (computed_longOf hv)
  | height => exact .computed (computed_intOf hv)
  | version => cases hv; exact .computed (.byte _)
  | powDistance => cases hv; exact .computed (.bigInt _)
  | stateRoot => cases hv; exact .stateRoot h
  | minerKey => cases hv; exact .minerKey h
  | powOnetimeKey => cases hv; exact .powOnetimeKey h
  | _ => cases hv; exact .octets _ (by decide)

theorem PreHeader.reading_of_read {h : PreHeader} {f : PreHeaderField} (hv : h.read f = .ok v) :
    Reading (.preHeader h) v := by
  cases f with
  | timestamp | nBits => exact .computed (computed_longOf hv)
  | height => exact .computed (computed_intOf hv)
  | version => cases hv; exact .computed (.byte _)
  | minerKey => cases hv; exact .nextMinerKey h
  | parentId | votes => cases hv; exact .octets _ (by decide)

theorem StateTree.reading_of_read {t : StateTree} {f : StateTreeField} (hv : t.read f = .ok v) :
    Reading (.stateTree t) v := by
  cases f with
  | digest => cases hv; exact .octets _ (by decide)
  | enabledOperations => cases hv; exact .computed (.byte _)
  | keyLength => exact .computed (computed_intOf hv)
  | valueLength =>
    simp only [StateTree.read] at hv
    split at hv
    · cases hv
      exact .absent
    · -- a length that is there is a number of its own
      obtain ⟨w, hw, hv⟩ := Outcome.bind_eq_ok.1 hv
      obtain ⟨-, rfl⟩ := intOf_eq_ok.1 hw
      cases hv
      exact .present _

/-- **Reading a record** only finds what the record holds. -/
theorem RecordField.reading_of_read {f : RecordField} {x : Value} (hv : f.read x = .ok v) :
    Reading x v := by
  unfold RecordField.read at hv
  split at hv
  · exact Header.reading_of_read hv
  · cases hv
  · exact PreHeader.reading_of_read hv
  · cases hv
  · exact StateTree.reading_of_read hv
  · cases hv

/-! ## Tokens -/

/-- A token is a pair of its id and its amount. -/
theorem Token.exists_of_toValue {t : Token} (h : t.toValue = .ok v) :
    ∃ n : Int64, v = .pair (.bytes t.id.1) (.long n) := by
  obtain ⟨w, hw, h⟩ := Outcome.bind_eq_ok.1 h
  obtain ⟨-, rfl⟩ := longOf_eq_ok.1 hw
  cases h
  exact ⟨_, rfl⟩

/-! ## Types that are known -/

/-- An option is put together when what it holds has the type. -/
theorem readTyped_eq_ok {d : ConditionDefect} {t : ValueType} {o : Option Value} :
    readTyped d t o = .ok v ↔ (∀ w ∈ o, w.type = t) ∧ .option t o = v := by
  cases o with
  | none => simp [readTyped]
  | some w =>
    rw [readTyped]
    split <;> simp_all

/-- A collection is put together when all its items have the type. -/
theorem Value.collOf_eq_ok {t : ValueType} {vs : List Value} :
    Value.collOf t vs = .ok v ↔ (∀ w ∈ vs, w.type = t) ∧ (Coll.ofList t vs).toValue = v := by
  rw [Value.collOf]
  split
  · rename_i bad hbad
    have htype : bad.type ≠ t := by simpa using List.find?_some hbad
    exact iff_of_false nofun fun h => htype (h.1 bad (List.mem_of_find?_eq_some hbad))
  · rename_i hnone
    have htype : ∀ w ∈ vs, w.type = t := by simpa using hnone
    rw [Except.ok.injEq, and_iff_right htype]

/-! ## Kinds of values -/

/-- The computation finds the only thing of which `Q` holds.  Where there is none, the condition is
malformed, for another reason than its depth. -/
inductive EvalM.Finds {α : Type} (Q : α → Prop) : EvalM α → Prop
  | found {a : α} (h : ∀ b, Q b ↔ b = a) : Finds Q (pure a)
  | missing {d : ConditionDefect} (hd : d ≠ .tooDeep) (h : ∀ a, ¬Q a) : Finds Q (EvalM.malformed d)

namespace EvalM.Finds

variable {α β : Type} {Q : α → Prop} {x : EvalM α}

theorem congr {R : α → Prop} (hx : Finds Q x) (h : ∀ a, Q a ↔ R a) : Finds R x :=
  funext (fun a => propext (h a)) ▸ hx

/-- A look at what was found. -/
theorem bind {f : α → EvalM β} {R : α → β → Prop} (hx : Finds Q x)
    (hf : ∀ a, Q a → Finds (R a) (f a)) : Finds (fun b => ∃ a, Q a ∧ R a b) (x >>= f) := by
  cases hx with
  | @found a h =>
    rw [pure_bind]
    exact (hf a ((h a).2 rfl)).congr fun b => by simp [h]
  | missing hd h => exact .missing hd fun b ⟨a, ha, _⟩ => h a ha

/-- A look at each item of a list. -/
theorem mapM {f : β → EvalM α} {Q : β → α → Prop} {bs : List β} (hf : ∀ b ∈ bs, Finds (Q b) (f b)) :
    Finds (fun as => List.Forall₂ Q bs as) (bs.mapM f) := by
  induction bs with
  | nil => exact .found fun as => by simp
  | cons b bs ih =>
    obtain ⟨hfirst, hrest⟩ := List.forall_mem_cons.1 hf
    rw [List.mapM_cons]
    exact (hfirst.bind fun a _ => (ih hrest).bind fun rest _ => .found fun as => Iff.rfl).congr
      fun as => by simp [List.forall₂_cons_left_iff]

end EvalM.Finds

open EvalM (Finds)

/-- A value that passes for a collection is this collection. -/
theorem Coll.eq_toValue_of_ofValue? {c : Coll} (h : ofValue? v = some c) : v = c.toValue := by
  cases v <;> cases h <;> rfl

@[simp] theorem Coll.ofValue?_toValue (c : Coll) : ofValue? c.toValue = some c := by
  cases c <;> rfl

namespace Value

variable (v : Value)

theorem finds_asBool : Finds (fun b => v = .bool b) v.asBool := by
  unfold asBool
  split
  · exact .found fun b => by simp [eq_comm]
  · rename_i hother
    exact .missing (by decide) hother

theorem finds_asInt : Finds (fun x => v = .int x) v.asInt := by
  unfold asInt
  split
  · exact .found fun x => by simp [eq_comm]
  · rename_i hother
    exact .missing (by decide) hother

theorem finds_asPoint : Finds (fun y => v = .groupElement y) v.asPoint := by
  unfold asPoint
  split
  · exact .found fun y => by simp [eq_comm]
  · rename_i hother
    exact .missing (by decide) hother

theorem finds_asBox : Finds (fun b => v = .box b) v.asBox := by
  unfold asBox
  split
  · exact .found fun b => by simp [eq_comm]
  · rename_i hother
    exact .missing (by decide) hother

theorem finds_asBytes : Finds (fun b => v = .bytes b) v.asBytes := by
  unfold asBytes
  split
  · exact .found fun b => by simp [eq_comm]
  · rename_i hother
    exact .missing (by decide) hother

theorem finds_asTuple : Finds (fun vs => v = .tuple vs) v.asTuple := by
  unfold asTuple
  split
  · exact .found fun vs => by simp [eq_comm]
  · rename_i hother
    exact .missing (by decide) hother

theorem finds_asOption : Finds (fun o => ∃ t, v = .option t o) v.asOption := by
  unfold asOption
  split
  · exact .found fun o => by simp [eq_comm]
  · rename_i hother
    exact .missing (by decide) fun o ⟨t, h⟩ => hother t o h

theorem finds_asColl : Finds (fun c => v = c.toValue) v.asColl := by
  unfold asColl
  split
  · rename_i c hc
    refine .found fun c' => ⟨fun h => ?_, ?_⟩
    · subst h
      simpa using hc
    · rintro rfl
      exact Coll.eq_toValue_of_ofValue? hc
  · rename_i hnone
    refine .missing (by decide) fun c h => ?_
    subst h
    simp at hnone

/-- A boolean counts as a settled proposition. -/
theorem finds_asProposition :
    Finds (fun p => v = .sigmaProp p ∨ ∃ b, v = .bool b ∧ p = .trivial b)
      v.asProposition := by
  unfold asProposition
  split
  · exact .found fun p => by simp [eq_comm]
  · exact .found fun p => by simp
  · rename_i hproposition hbool
    refine .missing (by decide) fun p h => ?_
    rcases h with h | ⟨b, h, -⟩
    · exact hproposition p h
    · exact hbool b h

end Value

/-! ## Items -/

/-- An item of a tuple is found by its number. -/
theorem finds_selectItem (v : Value) (number : UInt8) : Finds
    (fun w => ∃ vs, v = .tuple vs ∧ ∃ i, number.toNat = i + 1 ∧ vs[i]? = some w)
    (selectItem v number) := by
  refine v.finds_asTuple.bind fun vs _ => ?_
  split
  · rename_i hzero
    exact .missing (by decide) fun w ⟨i, hi, _⟩ => by omega
  · rename_i i hi
    split
    · rename_i w hw
      exact .found fun w' => by simp [hi, hw, eq_comm]
    · rename_i hnone
      exact .missing (by decide) fun w ⟨j, hj, hw⟩ => by
        -- items are numbered from one
        obtain rfl : j = i := by omega
        simp [hnone] at hw

/-- Items are put together when all of them have the type. -/
theorem finds_collectItems (t : ValueType) (vs : List Value) :
    Finds (fun w => (∀ v ∈ vs, v.type = t) ∧ (Coll.ofList t vs).toValue = w)
      (collectItems t vs) := by
  simp only [← Value.collOf_eq_ok]
  unfold collectItems
  split
  · rename_i w hw
    exact .found fun w' => by simp [hw, eq_comm]
  · rename_i e he
    exact .missing (by decide) fun w hw => by simp [he] at hw

/-- The propositions that a collection consists of. -/
theorem finds_propositionItems (c : Coll) :
    Finds (fun ps => c = .values .sigmaProp (ps.map .sigmaProp)) (propositionItems c) := by
  unfold propositionItems
  split
  · rename_i vs
    refine (Finds.mapM (Q := fun v p => v = .sigmaProp p) fun v _ => ?_).congr fun ps => ?_
    · split
      · exact .found fun p => by simp [eq_comm]
      · rename_i hother
        exact .missing (by decide) hother
    · -- read one by one, the items are the propositions in order
      rw [← List.forall₂_map_right_iff, List.forall₂_eq_eq_eq]
      simp
  · rename_i hother
    exact .missing (by decide) fun ps h => hother _ h

/-! ## Scripts and reductions -/

section

variable [Suite]

theorem decodeScript_eq_ok {version : UInt8} {b : Bytes} {s : Expr} :
    decodeScript version b = .ok s ↔ (Expr.decoder version).exactly b = .ok s := by
  unfold decodeScript
  split <;> simp_all

/-- A reduction succeeds when the run does, and its cost is what the run has spent. -/
theorem Condition.reduce_eq_ok {c : Condition} {ctx : Context} {limit : UInt64} {r : Reduction} :
    c.reduce ctx limit = .ok r ↔ ∃ m, (c.run ctx).run (Meter.new limit) = (.ok r.proposition, m) ∧
      r.cost = UInt64.ofNat m.spent := by
  unfold Condition.reduce
  split
  · rename_i p m hrun
    rw [hrun]
    constructor
    · rintro ⟨⟩
      exact ⟨m, rfl, rfl⟩
    · rintro ⟨_, ⟨⟩, hcost⟩
      rw [← hcost]
  · rename_i e m hrun
    rw [hrun]
    exact iff_of_false nofun fun ⟨_, h, _⟩ => by cases h

end

end Covenant

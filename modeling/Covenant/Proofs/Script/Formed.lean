/-
  FORMED — what is read keeps the rules of types and of tuples.

  A reader of data is told the type by what it has read before, and makes of the octets a value of
  just this type.  A type that was read has tuples of allowed lengths only.  So all values that are
  read follow both rules, boxes inside boxes included, and so do the constants of a script that a
  variable holds and the types that it names.

  A tuple that an expression builds is another matter: an expression is read with any number of
  items.
-/
import Covenant.Proofs.Reduction.Scripts
import Covenant.Proofs.Script.Everywhere
import Covenant.Proofs.Script.Restoring
import Covenant.Proofs.Script.Taking

namespace Covenant

open Decoder

/-- The value follows the rule of types, has no tuple that is too short or too long, and names
sized types only. -/
structure Value.Formed (v : Value) : Prop where
  typed : v.Typed
  arity : v.Arity 2
  namesSized : v.NamesSized

/-- The values in a node are formed, and the types that it names are sized. -/
structure Expr.Formed (n : Expr) : Prop where
  values : ∀ v ∈ n.values, v.Everywhere Value.Formed
  types : ∀ t ∈ n.types, t.Sized

theorem Value.formed_atom (a : Atom) : (Value.atom a).Everywhere Formed :=
  everywhere_atom.2 ⟨trivial, trivial, trivial⟩

theorem Value.formed_bytes (b : Bytes) : (Value.bytes b).Everywhere Formed :=
  everywhere_bytes.2 ⟨trivial, trivial, trivial⟩

/-! ## Types -/

namespace Decoder

theorem Takes.length_replicate {α : Type} {d : Decoder α} (hd : Takes d fun _ _ => True) (k : Nat) :
    Takes (d.replicate k) fun vs _ => vs.length = k := by
  induction k with
  | zero => exact pure rfl
  | succ k ih => exact bind hd fun _ _ _ => bind ih fun _ _ h => pure (congrArg (· + 1) h)

theorem Takes.and {α : Type} {d : Decoder α} {Q R : α → Prop} (hq : Takes d fun v _ => Q v)
    (hr : Takes d fun v _ => R v) : Takes d fun v _ => Q v ∧ R v := by
  intro b v r h
  obtain ⟨n, hn, hv⟩ := hq b v r h
  obtain ⟨_, _, hv'⟩ := hr b v r h
  exact ⟨n, hn, hv, hv'⟩

end Decoder

/-- The reader of types refuses tuples that are too short or too long. -/
theorem ValueType.takes_sizedWithin (levels : Nat) :
    Takes (ValueType.decoderWithin levels) fun t _ => t.Sized := by
  induction levels with
  | zero => exact .malformed _
  | succ levels ih =>
    refine .bind (.any .u8) fun c _ _ => ?_
    split
    · exact .bind ih fun t _ ht => .pure ht
    · exact .bind ih fun t _ ht => .pure ht
    · -- the bounds on the number of parts are checked before the parts are read
      refine .bind .number fun k _ _ => .check fun hlow => .check fun hhigh => ?_
      refine .bind ((Takes.length_replicate (ih.imp fun _ _ _ => trivial) k).and
        (ih.replicate (fun _ h => h) k)) fun ts _ hts => .pure ⟨?_, sizedAll_iff.2 hts.2⟩
      rw [hts.1]
      exact ⟨Nat.not_lt.1 hlow, Nat.not_lt.1 hhigh⟩
    · split
      · exact .malformed _
      · exact .pure trivial

theorem ValueType.takes_sized : Takes ValueType.decoder fun t _ => t.Sized := takes_sizedWithin _

/-! ## Expressions -/

namespace Expr

variable {A : Expr → Prop}

theorem forall_nodesAll {es : List Expr} :
    (∀ n ∈ nodesAll es, A n) ↔ ∀ e ∈ es, ∀ n ∈ e.nodes, A n := by
  induction es with
  | nil => simp [nodesAll]
  | cons e es ih => rw [nodesAll, List.forall_mem_append, ih, List.forall_mem_cons]

theorem forall_nodesDefs {ds : List (UInt32 × Expr)} :
    (∀ n ∈ nodesDefs ds, A n) ↔ ∀ d ∈ ds, ∀ n ∈ d.2.nodes, A n := by
  induction ds with
  | nil => simp [nodesDefs]
  | cons d ds ih => rw [nodesDefs, List.forall_mem_append, ih, List.forall_mem_cons]

/-- The nodes of an expression are its root and the nodes of its parts. -/
theorem forall_nodes_iff {e : Expr} : (∀ n ∈ e.nodes, A n) ↔
    A e ∧ (∀ s ∈ e.operands, ∀ n ∈ s.nodes, A n) ∧ ∀ s ∈ e.bodies, ∀ n ∈ s.nodes, A n := by
  cases e with
  | block ds e =>
    rw [nodes, List.forall_mem_cons, List.forall_mem_append, forall_nodesDefs, operands,
      List.forall_mem_append, List.forall_mem_map, List.forall_mem_singleton]
    simp [bodies]
  | variadic op es | collOf t es =>
    rw [nodes, List.forall_mem_cons, forall_nodesAll]
    simp [operands, bodies]
  | byIndex c i default =>
    cases default <;> simp [nodes, operands, bodies, or_imp, forall_and]
  | _ => simp [nodes, operands, bodies, or_imp, forall_and, and_assoc]

section

variable {value : Decoder Value} (hvalue : Takes value fun v _ => v.Everywhere Value.Formed)
include hvalue

/-- All nodes of an expression that was read are formed. -/
theorem takes_formedWithin (version : UInt8) (levels : Nat) :
    Takes (decoderWithin value version levels) fun e _ => ∀ n ∈ e.nodes, n.Formed := by
  induction levels using levels_induction with
  | tooDeep => exact .malformed _
  | node levels hsub hbody =>
    rw [decoderWithin_succ]
    refine .bind (.of_asks (asks_opcodeDecoder _)) fun op _ _ => ?_
    refine (takes_operandDecoder ValueType.takes_sized hvalue hsub hbody (fun _ h => h)
      (fun _ h => h) (fun _ h => h) op).imp fun e _ hparts => ?_
    exact forall_nodes_iff.2 ⟨⟨hparts.values, hparts.types⟩, hparts.operands, hparts.bodies⟩

end

end Expr

/-! ## Values and boxes -/

/-- All values in the registers of the box are formed. -/
def Box.Formed (b : Box) : Prop := ∀ v ∈ b.candidate.registers, v.Everywhere Value.Formed

section

variable {value : Decoder Value} (hvalue : Takes value fun v _ => v.Everywhere Value.Formed)
include hvalue

theorem Box.takes_formedWith : Takes (Box.decoderWith value) fun b _ => b.Formed := by
  have hcandidate : Takes (Candidate.decoderWith value) fun c _ =>
      ∀ v ∈ c.registers, v.Everywhere Value.Formed :=
    .bind .u64 fun _ _ _ => .bind .string fun _ _ _ => .bind .lift fun _ _ _ =>
    .bind .u32 fun _ _ _ => .bind .number fun k _ _ => .check fun _ =>
    .bind (.any (Token.asks_decoder.replicate k)) fun _ _ _ => .bind .number fun m _ _ =>
    .check fun _ => .bind (hvalue.replicate (fun _ h => h) m) fun rs _ hrs => .pure hrs
  exact .bind hcandidate fun c _ hc => .bind .octets fun _ _ _ => .bind .u32 fun _ _ _ =>
    .check fun _ => .pure hc

end

variable [Suite] {box : Decoder Box}

/-- The reader of an atomic type yields values of this type. -/
theorem AtomType.takes_formed (hbox : Takes box fun b _ => b.Formed) (a : AtomType) :
    Takes (a.dataDecoder box) fun v _ => v.type = .atom a ∧ v.Everywhere Value.Formed := by
  -- an atom is well-formed whatever was read for it
  have hatom (a : Atom) : (Value.atom a).type = .atom a.type ∧
      (Value.atom a).Everywhere Value.Formed := ⟨rfl, Value.formed_atom a⟩
  cases a with
  | bool => exact .bind (.any (asks_flagDecoder not_false)) fun b _ _ => .pure (hatom (.bool b))
  | byte => exact .bind (.any .u8) fun _ _ _ => .pure (hatom (.byte _))
  | short => exact .bind (.any .u16) fun _ _ _ => .pure (hatom (.short _))
  | int => exact .bind (.any .u32) fun _ _ _ => .pure (hatom (.int _))
  | long => exact .bind (.any .u64) fun _ _ _ => .pure (hatom (.long _))
  | bigInt => exact .bind (.any BigInt.asks_decoder) fun x _ _ => .pure (hatom (.bigInt x))
  | groupElement => exact .bind (.any .point) fun y _ _ => .pure (hatom (.groupElement y))
  | sigmaProp =>
    exact .bind (.any Proposition.asks_decoder) fun p _ _ => .pure (hatom (.sigmaProp p))
  | stateTree =>
    exact .bind (.any StateTree.asks_decoder) fun t _ _ => .pure (hatom (.stateTree t))
  | header => exact .bind (.any Header.asks_decoder) fun h _ _ => .pure (hatom (.header h))
  | preHeader =>
    exact .bind (.any PreHeader.asks_decoder) fun h _ _ => .pure (hatom (.preHeader h))
  | box =>
    exact .bind hbox fun b _ hb =>
      .pure ⟨rfl, Value.everywhere_box.2 ⟨⟨trivial, trivial, trivial⟩, hb⟩⟩

mutual

/-- **The reader of a type yields values of this type**, formed when the type is sized. -/
theorem ValueType.takes_formed (hbox : Takes box fun b _ => b.Formed) : (t : ValueType) →
    t.Sized → Takes (t.dataDecoder box) fun v _ => v.type = t ∧ v.Everywhere Value.Formed
  | .atom a, _ => a.takes_formed hbox
  | .coll t, ht => by
    have hitem := ValueType.takes_formed hbox t ht
    rw [ValueType.dataDecoder]
    split
    · rename_i hbyte
      subst hbyte
      exact .bind .string fun b _ _ => .pure ⟨rfl, Value.formed_bytes b⟩
    · rename_i hflat
      refine .bind (.any .count) fun k _ _ => .bind (hitem.replicate (fun _ h => h) k)
        fun vs _ hvs => .pure ⟨rfl, Value.everywhere_seq.2 ⟨?_, fun v hv => (hvs v hv).2⟩⟩
      -- the items are of the type they were read for, which is not that of octets
      exact ⟨⟨hflat, fun v hv => (hvs v hv).1⟩, trivial, ht⟩
  | .tuple ts, ht => by
    refine .bind (ValueType.takes_formedAll hbox ts ht.2) fun vs _ hvs => .pure ?_
    obtain ⟨rfl, hvs⟩ := hvs
    refine ⟨rfl, Value.everywhere_tuple.2 ⟨⟨trivial, ?_, trivial⟩, hvs⟩⟩
    -- as many values were read as the type has parts
    rw [Value.typeAll_eq_map, Sized, List.length_map] at ht
    exact ht.1
  | .option t, ht => by
    refine .bind (.any (asks_flagDecoder not_false)) fun _ _ _ => .ite
      (.bind (ValueType.takes_formed hbox t ht) fun v _ hv => .pure ⟨rfl, ?_⟩) (.pure ⟨rfl, ?_⟩)
    · refine Value.everywhere_option.2 ⟨⟨?_, trivial, ht⟩, ?_⟩
      · rintro _ ⟨⟩
        exact hv.1
      · rintro _ ⟨⟩
        exact hv.2
    · exact Value.everywhere_option.2 ⟨⟨nofun, trivial, ht⟩, nofun⟩

theorem ValueType.takes_formedAll (hbox : Takes box fun b _ => b.Formed) :
    (ts : List ValueType) → SizedAll ts → Takes (ValueType.dataDecoderAll box ts) fun vs _ =>
      Value.typeAll vs = ts ∧ ∀ v ∈ vs, v.Everywhere Value.Formed
  | [], _ => .pure ⟨rfl, List.forall_mem_nil _⟩
  | t :: ts, ht => by
    refine .bind (ValueType.takes_formed hbox t ht.1) fun v _ hv =>
      .bind (ValueType.takes_formedAll hbox ts ht.2) fun vs _ hvs => .pure ⟨?_, ?_⟩
    · rw [Value.typeAll, hv.1, hvs.1]
    · exact List.forall_mem_cons.2 ⟨hv.2, hvs.2⟩

end

theorem Value.takes_formed (hbox : Takes box fun b _ => b.Formed) :
    Takes (Value.decoderWith box) fun v _ => v.Everywhere Formed :=
  .bind ValueType.takes_sized fun t _ ht => (t.takes_formed hbox ht).imp fun _ _ hv => hv.2

/-- **Boxes inside boxes**: each reader goes into one box more than the one before. -/
theorem Box.takes_formed (levels : Nat) : Takes (Box.decoderWithin levels) fun b _ => b.Formed := by
  induction levels with
  | zero => exact .fail _
  | succ levels ih => exact Box.takes_formedWith (Value.takes_formed ih)

/-- **All nodes of a script are formed**, whatever octets spell it. -/
theorem formed_of_decodeScript {version : UInt8} {b : Bytes} {s : Expr}
    (h : decodeScript version b = .ok s) : ∀ n ∈ s.nodes, n.Formed := by
  have hdecoder : Takes (Expr.decoder version) fun e _ => ∀ n ∈ e.nodes, n.Formed :=
    fun b => Expr.takes_formedWithin (Value.takes_formed (Box.takes_formed (b.length + 1))) _ _ b
  exact hdecoder.exactly (decodeScript_eq_ok.1 h)

/-- So are the nodes of every script that a condition may come to run. -/
theorem Condition.Reads.formed {c : Condition} {ctx : Context} {s : Expr} (h : c.Reads ctx s) :
    ∀ n ∈ s.nodes, n.Formed := by
  obtain ⟨-, -, -, -, -, b, -, hdecode⟩ := h
  exact formed_of_decodeScript hdecode

end Covenant

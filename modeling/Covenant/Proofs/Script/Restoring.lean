/-
  RESTORING — every encodable value, expression, condition and box is read back.

  For each of them there is a notion of being read back, and for each node a lemma that it is when
  its parts are.  A node of an expression is read in the way its opcode says, one case for each
  kind; its operands have one level less, the bodies of functions two.  A condition that was read
  from octets is read from them again; one that was built has a header that says what is in it.

  1. **Values** — data under a known type, then values behind their type.
  2. **Expressions** — operands of an opcode, then nodes with levels and versions.
  3. **Conditions and boxes** — from their parts.
  4. **The knot** — by recursion on encodability, which has one rule for each kind of object.
  5. **Readers** — which start with a level for each octet, and so with enough.
-/
import Covenant.Proofs.Script.Encodable

namespace Covenant

open Decoder

variable [Suite]

/-! ## Values -/

/-- Reads a value with boxes nested inside it to at most so many levels. -/
abbrev Value.decoderWithin (l : Nat) : Decoder Value := Value.decoderWith (Box.decoderWithin l)

/-- With levels enough, the box is read from its encoding. -/
def Box.ReadBack (b : Box) : Prop := EventuallyReads Box.decoderWithin b.toBytes b

namespace Value

/-- With levels enough, the value is read from its encoding. -/
def ReadBack (v : Value) : Prop := EventuallyReads Value.decoderWithin v.toBytes v

/-- With levels enough, the value is read from its data, given its type. -/
def DataReadBack (v : Value) : Prop :=
  EventuallyReads (fun l => v.type.dataDecoder (Box.decoderWithin l)) (Piece.join v.dataPieces) v

theorem DataReadBack.atom {a : Atom} (h : a.Encodable) : (Value.atom a).DataReadBack :=
  ⟨0, fun l _ => Atom.reads_dataDecoder h (Box.decoderWithin l)⟩

theorem DataReadBack.box {b : Box} (h : b.ReadBack) : (Value.box b).DataReadBack := h.map

theorem DataReadBack.bytes {b : Bytes} (h : b.length ≤ Piece.maxSize) :
    (Value.bytes b).DataReadBack :=
  (reads_string h).eventually.map

/-- Items of a solid type have data, so that the guard of their count lets them pass. -/
theorem DataReadBack.seq {t : ValueType} {vs : List Value} (flat : t ≠ .byte) (solid : t.Solid)
    (typed : ∀ v ∈ vs, v.type = t) (length_le : vs.length ≤ Piece.maxSize)
    (h : ∀ v ∈ vs, v.DataReadBack) : (Value.seq t vs).DataReadBack := by
  have hbytes : Piece.join (dataPieces (.seq t vs)) =
      (Piece.size "n" vs.length).octets ++
        (vs.flatMap (fun v => Piece.join v.dataPieces) ++ []) := by
    simp [dataPieces, dataPiecesAll_eq_flatMap, Piece.join_flatMap]
  have hitem (v : Value) (hv : v ∈ vs) :
      EventuallyReads (fun l => t.dataDecoder (Box.decoderWithin l)) (Piece.join v.dataPieces) v :=
    typed v hv ▸ h v hv
  have hne (v : Value) (hv : v ∈ vs) : Piece.join v.dataPieces ≠ [] :=
    v.join_dataPieces_ne_nil (typed v hv ▸ solid)
  rw [DataReadBack, hbytes]
  exact .ite_neg flat (.countedThen _ length_le hne hitem (reads_pure _).eventually)

theorem reads_dataDecoderAll {vs : List Value} (h : ∀ v ∈ vs, v.DataReadBack) :
    EventuallyReads (fun l => ValueType.dataDecoderAll (Box.decoderWithin l) (typeAll vs))
      (Piece.join (dataPiecesAll vs)) vs := by
  induction vs with
  | nil => exact (reads_pure []).eventually
  | cons v vs ih =>
    obtain ⟨hv, hvs⟩ := List.forall_mem_cons.1 h
    rw [dataPiecesAll, Piece.join_append]
    exact EventuallyReads.bind hv (ih hvs).map

theorem DataReadBack.tuple {vs : List Value} (h : ∀ v ∈ vs, v.DataReadBack) :
    (Value.tuple vs).DataReadBack :=
  (reads_dataDecoderAll h).map

theorem DataReadBack.optionNone {t : ValueType} : (Value.option t none).DataReadBack :=
  (reads_flagDecoder .optionFlag false).eventually.bind (reads_pure _).eventually

theorem DataReadBack.optionSome {t : ValueType} {v : Value} (typed : v.type = t)
    (h : v.DataReadBack) : (Value.option t (some v)).DataReadBack := by
  have hbytes : Piece.join (dataPieces (.option t (some v))) =
      [1] ++ Piece.join v.dataPieces := by
    simp [dataPieces, Piece.u8]
  subst typed
  rw [DataReadBack, hbytes]
  exact (reads_flagDecoder .optionFlag true).eventually.bind (EventuallyReads.map h)

/-- A value with its type in front of its data. -/
theorem ReadBack.of_data {v : Value} (ht : v.type.Encodable) (h : v.DataReadBack) :
    v.ReadBack := by
  rw [ReadBack, toBytes, pieces, Piece.join_append]
  exact (ValueType.reads_decoder ht).eventually.bind h

omit [Suite] in
theorem toBytes_ne_nil (v : Value) : v.toBytes ≠ [] := by
  simp [toBytes, pieces, v.type.join_pieces_ne_nil]

end Value

/-! ## Expressions -/

namespace Expr

omit [Suite] in
/-- An opcode is read at every version that provides the operation. -/
theorem reads_opcodeDecoder {version : UInt8} {op : Opcode} (h : op.since ≤ version) :
    Reads (opcodeDecoder version) [op.code] op := by
  rw [← List.append_nil [op.code]]
  refine (reads_u8 op.code).bind ?_
  simp only [Opcode.ofCode?_code, if_neg (UInt8.not_lt.2 h)]
  exact reads_pure op

omit [Suite] in
theorem join_piecesAll (es : List Expr) : Piece.join (piecesAll es) = es.flatMap toBytes := by
  rw [piecesAll_eq_flatMap, Piece.join_flatMap]
  rfl

omit [Suite] in
theorem toBytes_ne_nil (e : Expr) : e.toBytes ≠ [] := e.join_pieces_ne_nil

section

omit [Suite]

variable {V : Nat → Decoder Value} {S B : Nat → Decoder Expr}

theorem eventually_listDecoder {es : List Expr} (hlen : es.length ≤ Piece.maxSize)
    (h : ∀ e ∈ es, EventuallyReads S e.toBytes e) :
    EventuallyReads (fun l => listDecoder (S l))
      ((Piece.size "n" es.length).octets ++ es.flatMap toBytes) es :=
  .counted _ hlen (fun e _ => e.toBytes_ne_nil) h

theorem eventually_defDecoder {d : UInt32 × Expr} (h : EventuallyReads S d.2.toBytes d.2) :
    EventuallyReads (fun l => defDecoder (S l)) ((Piece.u32 "id" d.1).octets ++ d.2.toBytes) d :=
  (reads_u32 "id" d.1).eventually.bind h.map

/-- **What follows an opcode is read**, when the parts of the node are: one case for each kind. -/
theorem eventually_operandDecoder {e : Expr} (shape : e.Shape)
    (hV : ∀ v ∈ e.values, EventuallyReads V v.toBytes v)
    (hS : ∀ s ∈ e.operands, EventuallyReads S s.toBytes s)
    (hB : ∀ s ∈ e.bodies, EventuallyReads B s.toBytes s) :
    ∃ c, e.toBytes = [e.opcode.code] ++ c ∧
      EventuallyReads (fun l => operandDecoder (V l) (S l) (B l) e.opcode) c e := by
  cases e with
  | const v =>
    have hv := hV v (by simp [values])
    exact ⟨_, by simp [toBytes, pieces, opcode, Piece.u8, Value.toBytes, Value.pieces], hv.map⟩
  | placeholder i =>
    exact ⟨_, by simp [toBytes, pieces, opcode, Piece.u8], (reads_u32 "index" i).eventually.map⟩
  | use i =>
    exact ⟨_, by simp [toBytes, pieces, opcode, Piece.u8], (reads_u32 "id" i).eventually.map⟩
  | block ds e =>
    have hd (d : UInt32 × Expr) (hd : d ∈ ds) : EventuallyReads S d.2.toBytes d.2 :=
      hS d.2 (List.mem_append_left _ (List.mem_map_of_mem hd))
    have he : EventuallyReads S e.toBytes e := hS e (by simp [operands])
    -- as it is read: the count, each definition behind its number, then the expression
    have hbytes : (block ds e).toBytes = [Opcode.block.code] ++
        ((Piece.size "n" ds.length).octets ++
        (ds.flatMap (fun d => (Piece.u32 "id" d.1).octets ++ d.2.toBytes) ++ e.toBytes)) := by
      simp [toBytes, pieces, Piece.u8, piecesDefs_eq_flatMap, Piece.join_flatMap]
    exact ⟨_, hbytes, .countedThen _ shape (fun d _ => by simp [d.2.toBytes_ne_nil])
      (fun d hmem => eventually_defDecoder (hd d hmem)) he.map⟩
  | variadic op es =>
    refine ⟨_, ?_, (eventually_listDecoder shape hS).map⟩
    simp [toBytes, pieces, opcode, Piece.u8, join_piecesAll]
  | collOf t es =>
    refine ⟨_, ?_, (ValueType.reads_decoder shape.1).eventually.bind
      (eventually_listDecoder shape.2 hS).map⟩
    simp [toBytes, pieces, opcode, Piece.u8, join_piecesAll]
  | context f =>
    exact ⟨[], by simp [toBytes, pieces, opcode, Piece.u8], (reads_pure _).eventually⟩
  | getVar i t =>
    exact ⟨_, by simp [toBytes, pieces, opcode, Piece.u8], (reads_u8 i).eventually.bind
      (ValueType.reads_decoder shape).eventually.map⟩
  | unary op e =>
    have he := hS e (by simp [operands])
    exact ⟨_, by simp [toBytes, pieces, opcode, Piece.u8], he.map⟩
  | register e i t =>
    have he := hS e (by simp [operands])
    -- registers below the fourth are read by other operations, and the decoder refuses their
    -- numbers
    have hrange : ¬(i < 4 ∨ 9 < i) := by
      simpa only [not_or, UInt8.not_lt] using shape.1
    exact ⟨_, by simp [toBytes, pieces, opcode, Piece.u8], he.bind ((reads_u8 i).eventually.bind
      (.ite_neg hrange (ValueType.reads_decoder shape.2).eventually.map))⟩
  | record f e =>
    have he := hS e (by simp [operands])
    exact ⟨_, by simp [toBytes, pieces, opcode, Piece.u8],
      (RecordKind.reads_fieldDecoder f).eventually.bind he.map⟩
  | binary op a b =>
    have ha := hS a (by simp [operands])
    have hb := hS b (by simp [operands])
    exact ⟨_, by simp [toBytes, pieces, opcode, Piece.u8], ha.bind hb.map⟩
  | ternary op a b c =>
    have ha := hS a (by simp [operands])
    have hb := hS b (by simp [operands])
    have hc := hS c (by simp [operands])
    exact ⟨_, by simp [toBytes, pieces, opcode, Piece.u8], ha.bind (hb.bind hc.map)⟩
  | byIndex c i default =>
    have hc := hS c (by simp [operands])
    have hi := hS i (by simp [operands])
    cases default with
    | none =>
      exact ⟨_, by simp [toBytes, pieces, opcode, Piece.u8], hc.bind (hi.bind
        ((reads_flagDecoder .defaultFlag false).eventually.bind (reads_pure _).eventually))⟩
    | some d =>
      have hd := hS d (by simp [operands])
      exact ⟨_, by simp [toBytes, pieces, opcode, Piece.u8], hc.bind (hi.bind
        ((reads_flagDecoder .defaultFlag true).eventually.bind hd.map))⟩
  | loop op c s b =>
    have hc := hS c (by simp [operands])
    -- the body is no operand: its decoder is one level further down
    have hb := hB b (by simp [bodies])
    exact ⟨_, by simp [toBytes, pieces, opcode, Piece.u8], hc.bind
      ((Signature.reads_decoder shape).eventually.bind hb.map)⟩
  | fold c z s b =>
    have hc := hS c (by simp [operands])
    have hz := hS z (by simp [operands])
    have hb := hB b (by simp [bodies])
    exact ⟨_, by simp [toBytes, pieces, opcode, Piece.u8], hc.bind (hz.bind
      ((Signature.reads_decoder shape).eventually.bind hb.map))⟩
  | selectField e i =>
    have he := hS e (by simp [operands])
    exact ⟨_, by simp [toBytes, pieces, opcode, Piece.u8], he.bind (reads_u8 i).eventually.map⟩
  | dhTuple g h u v =>
    have hg := hS g (by simp [operands])
    have hh := hS h (by simp [operands])
    have hu := hS u (by simp [operands])
    have hv := hS v (by simp [operands])
    exact ⟨_, by simp [toBytes, pieces, opcode, Piece.u8], hg.bind (hh.bind (hu.bind hv.map))⟩
  | deserialize i t =>
    exact ⟨_, by simp [toBytes, pieces, opcode, Piece.u8], (reads_u8 i).eventually.bind
      (ValueType.reads_decoder shape).eventually.map⟩

end

/-- With levels enough for boxes, the expression is read at every version that provides it and with
every number of levels of its own that is above its depth. -/
def ReadBack (e : Expr) : Prop :=
  ∀ version levels, e.Provided version → e.depth 2 < levels →
    EventuallyReads (fun l => decoderWithin (Value.decoderWithin l) version levels) e.toBytes e

theorem ReadBack.node {e : Expr} (shape : e.Shape) (values : ∀ v ∈ e.values, v.ReadBack)
    (operands : ∀ s ∈ e.operands, s.ReadBack) (bodies : ∀ s ∈ e.bodies, s.ReadBack) :
    e.ReadBack := by
  intro version levels hprovided hdepth
  obtain ⟨rest, rfl⟩ := Nat.exists_eq_add_of_le' (Nat.zero_lt_of_lt hdepth)
  obtain ⟨hop, hprovidedS, hprovidedB⟩ := provided_iff.1 hprovided
  obtain ⟨hdepthS, hdepthB⟩ := depth_le_iff.1 (Nat.le_of_lt_succ hdepth)
  -- `rest` levels are left for operands, and one less for bodies, whose depth counts twice
  obtain ⟨c, hbytes, hread⟩ := eventually_operandDecoder shape values
    (fun s hs => operands s hs version rest (hprovidedS s hs) (hdepthS s hs))
    (fun s hs => bodies s hs version (rest - 1) (hprovidedB s hs) (by have := hdepthB s hs; omega))
  rw [hbytes]
  simp only [decoderWithin_succ]
  exact (reads_opcodeDecoder hop).eventually.bind hread

end Expr

/-! ## Conditions -/

namespace Condition

omit [Suite] in
/-- A header for a version says nothing but the version, that a length follows when there must be
one, and whether there are constants. -/
theorem headerFor_spec {v : UInt8} (hv : v ≤ maxScriptVersion) (constants : Bool) :
    headerFor v constants &&& reservedBits = 0 ∧ headerFor v constants &&& versionMask = v ∧
      ¬(0 < v ∧ headerFor v constants &&& sizeFlag = 0) ∧
      (headerFor v constants &&& constantsFlag ≠ 0 ↔ constants = true) := by
  have hall : ∀ i : Fin 3, ∀ constants,
      headerFor (UInt8.ofNat i) constants &&& reservedBits = 0 ∧
      headerFor (UInt8.ofNat i) constants &&& versionMask = UInt8.ofNat i ∧
      ¬(0 < UInt8.ofNat i ∧ headerFor (UInt8.ofNat i) constants &&& sizeFlag = 0) ∧
      (headerFor (UInt8.ofNat i) constants &&& constantsFlag ≠ 0 ↔ constants = true) := by
    decide
  have hlt : v.toNat < 3 := Nat.lt_succ_of_le (UInt8.le_iff_toNat_le.1 hv)
  simpa only [UInt8.ofNat_toNat] using hall ⟨v.toNat, hlt⟩ constants

/-- A condition that was put together has a header for a version that provides its expression, and
no constants that the header does not announce. -/
inductive Assembled : Condition → Prop
  | intro {version : UInt8} {flag : Bool} {cs : List Value} {root : Expr}
      (version_le : version ≤ maxScriptVersion) (provided : root.Provided version)
      (announced : flag = false → cs = []) :
      Assembled (.parsed (headerFor version flag) cs root)

omit [Suite] in
theorem assembled_lowest {flag : Bool} {cs : List Value} {root : Expr}
    (announced : flag = false → cs = []) :
    Assembled (.parsed (headerFor root.requiredVersion flag) cs root) :=
  .intro (Expr.requiredVersion_le_iff.2 root.provided_maxScriptVersion)
    (Expr.requiredVersion_le_iff.1 (UInt8.le_refl _)) announced

omit [Suite] in
theorem assembled_versioned {version : UInt8} {cs : List Value} {root : Expr} {c : Condition}
    (h : Condition.versioned version cs root = .ok c) : c.Assembled := by
  obtain ⟨hv, hprovided, rfl⟩ := of_versioned h
  exact .intro hv hprovided (by simp)

/-- A condition was read from its octets, or it was put together. -/
theorem Built.read_or_assembled {c : Condition} (h : c.Built) :
    (∃ b, Condition.ofBytes b = .ok c) ∨ c.Assembled := by
  cases h with
  | new root => exact .inr (assembled_lowest fun _ => rfl)
  | withConstants constants root => exact .inr (assembled_lowest nofun)
  | versioned h => exact .inr (assembled_versioned h)
  | ofProposition p => exact .inr (assembled_lowest fun _ => rfl)
  | ofBytes h => exact .inl ⟨_, h⟩

/-- With levels enough for boxes, the condition is read from its octets. -/
def ReadBack (c : Condition) : Prop :=
  ∃ m, ∀ l, m ≤ l → ofBytesWith (Value.decoderWithin l) c.toBytes = .ok c

/-- Octets are read alike by all readers with levels for them. -/
theorem ofBytesWith_eq {b : Bytes} {l l' : Nat} (hl : b.length ≤ l) (hl' : b.length ≤ l') :
    ofBytesWith (Value.decoderWithin l) b = ofBytesWith (Value.decoderWithin l') b :=
  ofBytesWith_steady (n := b.length + 1)
    (Value.faithful_decoderWith (Box.faithful_decoderWithin (b.length + 1))) (by omega) hl hl'

/-- **What was read is read again**, also when its body could not be read. -/
theorem ReadBack.of_read {b : Bytes} {c : Condition} (h : Condition.ofBytes b = .ok c) :
    c.ReadBack := by
  refine ⟨b.length, fun l hl => ?_⟩
  rw [toBytes_of_ofBytes h, ofBytesWith_eq hl (Nat.le_succ b.length)]
  exact h

theorem reads_constantsDecoder {header : UInt8} {cs : List Value}
    (announced : header &&& constantsFlag = 0 → cs = [])
    (length_le : header &&& constantsFlag ≠ 0 → cs.length ≤ Piece.maxSize)
    (h : ∀ v ∈ cs, v.ReadBack) :
    EventuallyReads (fun l => constantsDecoder (Value.decoderWithin l) header)
      (Piece.join (constantsPieces header cs)) cs := by
  -- without the flag no table is written, and there must be none to write
  by_cases hflag : header &&& constantsFlag = 0
  · obtain rfl := announced hflag
    rw [constantsPieces, if_neg (not_not.2 hflag)]
    exact .ite_neg (not_not.2 hflag) (reads_pure []).eventually
  · have hbytes : Piece.join (constantsPieces header cs) =
        (Piece.size "n" cs.length).octets ++ cs.flatMap Value.toBytes := by
      rw [constantsPieces, if_pos hflag, Piece.join_cons, Value.piecesAll_eq_flatMap,
        Piece.join_flatMap]
      rfl
    rw [hbytes]
    exact .ite_pos hflag (.counted _ (length_le hflag) (fun v _ => v.toBytes_ne_nil) h)

theorem Assembled.reads_bodyDecoder {header : UInt8} {cs : List Value} {root : Expr}
    (h : (Condition.parsed header cs root).Assembled) (countable : Countable header cs root)
    (hcs : ∀ v ∈ cs, v.ReadBack) (shallow : root.Shallow) (hroot : root.ReadBack) :
    EventuallyReads (fun l => bodyDecoder (Value.decoderWithin l) header) (body header cs root)
      (.parsed header cs root) := by
  cases h with | @intro version flag _ _ version_le provided announced =>
  obtain ⟨hreserved, hversion, hsized, hconstants⟩ := headerFor_spec version_le flag
  have hannounced (hflag : headerFor version flag &&& constantsFlag = 0) : cs = [] :=
    announced (by simpa [hflag] using hconstants)
  have hbytes : body (headerFor version flag) cs root =
      Piece.join (constantsPieces (headerFor version flag) cs) ++ root.toBytes :=
    Piece.join_append ..
  rw [hbytes]
  -- the header passes the three checks that come before the constants
  refine .ite_neg (not_not.2 hreserved) (.ite_neg ?_ (.ite_neg ?_ ?_))
  · rw [hversion]
    exact UInt8.not_lt.2 version_le
  · rwa [hversion]
  · refine (reads_constantsDecoder hannounced countable.constants_le hcs).bind ?_
    rw [hversion]
    exact (hroot version (maxExprDepth + 1) provided (Nat.lt_succ_of_le shallow)).map

omit [Suite] in
/-- The length in front of a body is accepted. -/
theorem sizeDecoder_append {body : Bytes} (h : body.length ≤ Piece.maxSize) :
    sizeDecoder ((Piece.size "body" body.length).octets ++ body) = .ok ((), body) := by
  rw [sizeDecoder, bind_apply, reads_size h body, Outcome.ok_bind, bind_apply, remaining,
    Outcome.ok_bind, if_neg (not_not.2 rfl)]
  rfl

theorem ReadBack.of_assembled {header : UInt8} {cs : List Value} {root : Expr}
    (h : (Condition.parsed header cs root).Assembled) (countable : Countable header cs root)
    (hcs : ∀ v ∈ cs, v.ReadBack) (shallow : root.Shallow) (hroot : root.ReadBack) :
    (Condition.parsed header cs root).ReadBack := by
  obtain ⟨m, hbody⟩ := h.reads_bodyDecoder countable hcs shallow hroot
  refine ⟨m, fun l hl => ?_⟩
  have hexactly := (hbody l hl).exactly
  -- with or without its size in front, the body is read to the end
  by_cases hflag : header &&& sizeFlag = 0
  · have hbytes : (Condition.parsed header cs root).toBytes = header :: body header cs root := by
      simp [toBytes, pieces, hflag, body, constantsPieces, Piece.u8]
    rw [hbytes]
    simp only [ofBytesWith, u8, Outcome.ok_bind, if_neg (not_not.2 hflag), hexactly]
  · have hbytes : (Condition.parsed header cs root).toBytes = header ::
        ((Piece.size "body" (body header cs root).length).octets ++ body header cs root) := by
      simp [toBytes, pieces, hflag, body, constantsPieces, Piece.u8, Piece.string]
    rw [hbytes]
    simp only [ofBytesWith, u8, Outcome.ok_bind, if_pos hflag,
      sizeDecoder_append (countable.body_le hflag), hexactly]
    rfl

end Condition

/-! ## Boxes -/

omit [Suite] in
theorem Token.reads_decoder (t : Token) : Reads Token.decoder (Piece.join t.pieces) t := by
  have hbytes : Piece.join t.pieces = t.id.1 ++ (Piece.u64 "amount" t.amount).octets := by
    simp [pieces, Piece.block]
  rw [hbytes]
  exact (reads_octets t.id).bind (reads_u64 "amount" t.amount).map

/-- With levels enough, the output is read from its encoding. -/
def Candidate.ReadBack (c : Candidate) : Prop :=
  EventuallyReads (fun l => Candidate.decoderWith (Value.decoderWithin l)) c.toBytes c

theorem Candidate.ReadBack.of_parts {c : Candidate} (hcondition : c.condition.ReadBack)
    (condition_le : c.condition.toBytes.length ≤ Piece.maxSize)
    (tokens_le : c.tokens.length ≤ maxTokens) (registers_le : c.registers.length ≤ maxRegisters)
    (hregisters : ∀ v ∈ c.registers, v.ReadBack) : c.ReadBack := by
  obtain ⟨value, condition, tokens, registers, height⟩ := c
  have hbytes : toBytes ⟨value, condition, tokens, registers, height⟩ =
      (Piece.u64 "value" value).octets ++
      (Piece.join (Piece.string "condition" condition.toBytes) ++
      ([] ++ ((Piece.u32 "creation_height" height).octets ++
      ((Piece.size "tokens" tokens.length).octets ++
      (tokens.flatMap (fun t => Piece.join t.pieces) ++
      ((Piece.size "registers" registers.length).octets ++
        registers.flatMap Value.toBytes)))))) := by
    rw [toBytes, pieces, Value.piecesAll_eq_flatMap]
    simp only [Piece.join_append, Piece.join_cons, Piece.join_flatMap, Piece.join_nil,
      List.append_assoc, List.append_nil, List.nil_append]
    rfl
  have htokens : tokens.length ≤ Piece.maxSize := Nat.le_trans tokens_le (by decide)
  have hcount : registers.length ≤ Piece.maxSize := Nat.le_trans registers_le (by decide)
  rw [ReadBack, hbytes]
  -- the condition stands as octets, which are read on their own once they are taken out
  refine (reads_u64 "value" value).eventually.bind ((reads_string condition_le).eventually.bind
    ((EventuallyReads.lift hcondition).bind ((reads_u32 "creation_height" height).eventually.bind
    ((reads_size htokens).eventually.bind (.ite_neg (Nat.not_lt.2 tokens_le) ?_)))))
  refine (reads_replicate _ fun t _ => t.reads_decoder).eventually.bind
    ((reads_size hcount).eventually.bind (.ite_neg (Nat.not_lt.2 registers_le) ?_))
  exact (EventuallyReads.replicate Value.toBytes hregisters).map

omit [Suite] in
/-- An output index has fewer octets than it is written with. -/
theorem toUInt32_le (i : UInt16) : ¬0xffff < i.toUInt32 := by
  have hlt := i.toNat_lt
  rw [UInt32.not_lt, UInt32.le_iff_toNat_le, UInt16.toNat_toUInt32]
  exact Nat.le_of_lt_succ hlt

theorem Box.ReadBack.of_candidate {b : Box} (h : b.candidate.ReadBack) : b.ReadBack := by
  obtain ⟨candidate, tx, index⟩ := b
  have hbytes : toBytes ⟨candidate, tx, index⟩ =
      candidate.toBytes ++ (tx.1 ++ ((Piece.u32 "index" index.toUInt32).octets ++ [])) := by
    simp [toBytes, pieces, Piece.block, Candidate.toBytes]
  rw [ReadBack, hbytes]
  refine .succ (EventuallyReads.bind h ((reads_octets tx).eventually.bind
    ((reads_u32 "index" index.toUInt32).eventually.bind (.ite_neg (toUInt32_le index) ?_))))
  rw [UInt16.toUInt16_toUInt32]
  exact (reads_pure _).eventually

/-! ## The knot -/

mutual

/-- What is encodable is read back: one case for each rule, whose premises are about the parts. -/
theorem Value.Encodable.readBack : ∀ {v : Value}, v.Encodable → v.ReadBack
  | _, .intro type fits => .of_data type (fits.dataReadBack type.sized.solid)

theorem Value.Fits.dataReadBack : ∀ {v : Value}, v.Fits → v.type.Solid → v.DataReadBack
  | _, .atom encodable, _ => .atom encodable
  | _, .box encodable, _ => .box encodable.readBack
  | _, .bytes length_le, _ => .bytes length_le
  | _, .seq flat typed length_le items, solid =>
    .seq flat solid typed length_le fun v hv => (items v hv).dataReadBack (typed v hv ▸ solid)
  | _, .tuple items, solid => .tuple fun v hv => (items v hv).dataReadBack
    (ValueType.solidAll_iff.1 solid.2 v.type (Value.typeAll_eq_map _ ▸ List.mem_map_of_mem hv))
  | _, .none, _ => .optionNone
  | _, .some typed content, solid => .optionSome typed (content.dataReadBack (typed ▸ solid))

theorem Expr.Encodable.readBack : ∀ {e : Expr}, e.Encodable → e.ReadBack
  | _, .intro _ fits => fits.readBack

theorem Expr.Fits.readBack : ∀ {e : Expr}, e.Fits → e.ReadBack
  | _, .node shape values operands bodies => .node shape (fun v hv => (values v hv).readBack)
    (fun s hs => (operands s hs).readBack) fun s hs => (bodies s hs).readBack

theorem Condition.Encodable.readBack : ∀ {c : Condition}, c.Encodable → c.ReadBack
  | _, .parsed built countable constants (.intro shallow fits) =>
    match built.read_or_assembled with
    | .inl ⟨_, hread⟩ => .of_read hread
    | .inr assembled => .of_assembled assembled countable
      (fun v hv => (constants v hv).readBack) shallow fits.readBack
  | _, .unparsed built =>
    -- what is put together is never unparsed
    match built.read_or_assembled with
    | .inl ⟨_, hread⟩ => .of_read hread

theorem Candidate.Encodable.readBack : ∀ {c : Candidate}, c.Encodable → c.ReadBack
  | _, .intro condition condition_le tokens_le registers_le registers =>
    .of_parts condition.readBack condition_le tokens_le registers_le
      fun v hv => (registers v hv).readBack

theorem Box.Encodable.readBack : ∀ {b : Box}, b.Encodable → b.ReadBack
  | _, .intro candidate => .of_candidate candidate.readBack

end

/-! ## Readers -/

theorem Value.Encodable.reads {v : Value} (h : v.Encodable) : Reads Value.decoder v.toBytes v :=
  EventuallyReads.levelled (fun n => Value.faithful_decoderWith (Box.faithful_decoderWithin n))
    h.readBack

theorem Expr.Encodable.reads {e : Expr} (h : e.Encodable) {version : UInt8}
    (hversion : e.requiredVersion ≤ version) : Reads (Expr.decoder version) e.toBytes e := by
  obtain ⟨shallow, -⟩ := id h
  exact EventuallyReads.levelled (fun n => Expr.faithful_decoderWith
      (Value.faithful_decoderWith (Box.faithful_decoderWithin n)) version)
    (h.readBack version (maxExprDepth + 1) (Expr.requiredVersion_le_iff.1 hversion)
      (Nat.lt_succ_of_le shallow))

theorem Condition.Encodable.ofBytes_toBytes {c : Condition} (h : c.Encodable) :
    Condition.ofBytes c.toBytes = .ok c := by
  obtain ⟨m, hread⟩ := h.readBack
  have hlevels : c.toBytes.length ≤ max m c.toBytes.length := Nat.le_max_right ..
  show ofBytesWith (Value.decoderWithin (c.toBytes.length + 1)) c.toBytes = _
  rw [ofBytesWith_eq (Nat.le_succ c.toBytes.length) hlevels]
  exact hread _ (Nat.le_max_left ..)

theorem Candidate.Encodable.reads {c : Candidate} (h : c.Encodable) :
    Reads Candidate.decoder c.toBytes c :=
  EventuallyReads.levelled (fun n => Candidate.faithful_decoderWith
    (Value.faithful_decoderWith (Box.faithful_decoderWithin n))) h.readBack

theorem Box.Encodable.reads {b : Box} (h : b.Encodable) : Reads Box.decoder b.toBytes b :=
  EventuallyReads.levelled Box.faithful_decoderWithin h.readBack

end Covenant

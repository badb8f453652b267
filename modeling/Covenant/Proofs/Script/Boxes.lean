/-
  BOXES — boxes and everything inside them are read from their encodings.

  Values, expressions, conditions and boxes hold one another, and so do their decoders.  Each one is
  shown faithful under the assumption that the decoder it is given for what it contains is; the
  octets it takes are the encoding of what it yields, and every atom in there is readable.

  The knot is tied by induction on the length of the input: a box inside a value comes behind the
  type of the value, so at least one octet is gone when it is reached.

  A condition is read from a byte string of its own.  When it carries its length and its rest cannot
  be read, it is kept octet for octet; so whether the rest can be read must not depend on how many
  levels are left, and that is why faithful families agree on failures as well.
-/
import Covenant.Proofs.Codec.Propositions

namespace Covenant

open Decoder

variable [Suite] {n k : Nat}

/-! ## Values -/

omit [Suite] in
theorem faithful_flagDecoder (d : FormatDefect) :
    Faithful n k (fun _ => flagDecoder d) fun b c => c = [if b then 1 else 0] :=
  .bind faithful_u8 fun
  | flag, _, rfl => by
    split
    · exact .pure rfl
    · exact .pure rfl
    · exact .malformed _

/-- The octets are the encoding of the box, and all its atoms are readable. -/
abbrev BoxRead : Box → Bytes → Prop := Spells Box.pieces (Box.Has Atom.Readable)

/-- The octets are the data of a value of the type, and all its atoms are readable. -/
abbrev DataRead (t : ValueType) (v : Value) (c : Bytes) : Prop :=
  v.type = t ∧ Spells Value.dataPieces (Value.Has Atom.Readable) v c

/-- The octets are the encoding of the value, and all its atoms are readable. -/
abbrev ValueRead : Value → Bytes → Prop := Spells Value.pieces (Value.Has Atom.Readable)

theorem AtomType.faithful_dataDecoder {B : Nat → Decoder Box} (hB : Faithful n k B BoxRead)
    (a : AtomType) : Faithful n k (fun l => a.dataDecoder (B l)) (DataRead (.atom a)) := by
  cases a
  case bool =>
    refine .map (faithful_flagDecoder _) ?_
    rintro b _ rfl
    exact ⟨rfl, by simp [Value.dataPieces, Atom.pieces, Piece.u8], Value.has_atom.2 trivial⟩
  case byte =>
    refine .map faithful_u8 ?_
    rintro x _ rfl
    exact ⟨rfl, by simp [Value.dataPieces, Atom.pieces, Piece.u8], Value.has_atom.2 trivial⟩
  case short =>
    refine .map faithful_u16 ?_
    rintro x _ rfl
    exact ⟨rfl, by simp [Value.dataPieces, Atom.pieces, Piece.u16], Value.has_atom.2 trivial⟩
  case int =>
    refine .map faithful_u32 ?_
    rintro x _ rfl
    exact ⟨rfl, by simp [Value.dataPieces, Atom.pieces, Piece.u32], Value.has_atom.2 trivial⟩
  case long =>
    refine .map faithful_u64 ?_
    rintro x _ rfl
    exact ⟨rfl, by simp [Value.dataPieces, Atom.pieces, Piece.u64], Value.has_atom.2 trivial⟩
  case bigInt =>
    refine .map BigInt.faithful_decoder ?_
    rintro x _ rfl
    exact ⟨rfl, by simp [Value.dataPieces, Atom.pieces, Piece.block], Value.has_atom.2 trivial⟩
  case groupElement =>
    refine .map faithful_point ?_
    rintro y _ ⟨rfl, hy⟩
    exact ⟨rfl, by simp [Value.dataPieces, Atom.pieces, Piece.block], Value.has_atom.2 hy⟩
  case sigmaProp =>
    refine .map Proposition.faithful_decoder ?_
    rintro p _ ⟨rfl, hp, -⟩
    exact ⟨rfl, rfl, Value.has_atom.2 hp⟩
  case box =>
    refine .map hB ?_
    -- the only atom that is read by a decoder which is still to be made
    rintro b _ ⟨rfl, hb⟩
    exact ⟨rfl, rfl, Value.has_box.2 hb.registers⟩
  case stateTree =>
    refine .map StateTree.faithful_decoder ?_
    rintro t _ rfl
    exact ⟨rfl, rfl, Value.has_atom.2 trivial⟩
  case header =>
    refine .map Header.faithful_decoder ?_
    rintro h _ ⟨rfl, hh⟩
    exact ⟨rfl, rfl, Value.has_atom.2 hh⟩
  case preHeader =>
    refine .map PreHeader.faithful_decoder ?_
    rintro h _ ⟨rfl, hh⟩
    exact ⟨rfl, rfl, Value.has_atom.2 hh⟩

omit [Suite] in
theorem Octets.ne_nil {m : Nat} (s : Octets (m + 1)) : s.1 ≠ [] :=
  List.ne_nil_of_length_pos (by rw [s.2]; exact Nat.succ_pos m)

namespace Value

omit [Suite]

theorem dataPiecesAll_eq_flatMap (vs : List Value) : dataPiecesAll vs = vs.flatMap dataPieces := by
  induction vs with
  | nil => rfl
  | cons v vs ih => rw [dataPiecesAll, ih, List.flatMap_cons]

theorem piecesAll_eq_flatMap (vs : List Value) : piecesAll vs = vs.flatMap pieces := by
  induction vs with
  | nil => rfl
  | cons v vs ih => rw [piecesAll, ih, List.flatMap_cons, pieces]

/-- Only an empty tuple has no data. -/
theorem join_dataPieces_ne_nil : ∀ v : Value, v.type.Solid → Piece.join v.dataPieces ≠ []
  | .atom a, _ => by
    cases a with
    | sigmaProp p =>
      cases p with
      | trivial b => simp [dataPieces, Atom.pieces, Proposition.pieces, Piece.u8]
      | leaf s => simp [dataPieces, Atom.pieces, Proposition.pieces, Piece.u8]
      | node c ps =>
        cases c <;> simp [dataPieces, Atom.pieces, Proposition.pieces, Connective.pieces, Piece.u8]
    | bigInt x => simpa [dataPieces, Atom.pieces, Piece.block] using (BigInt.encode x).ne_nil
    | groupElement y => simpa [dataPieces, Atom.pieces, Piece.block] using y.ne_nil
    | stateTree t =>
      simp [dataPieces, Atom.pieces, StateTree.pieces, Piece.u8]
    | header h => simp [dataPieces, Atom.pieces, Header.pieces, Piece.u8]
    | preHeader h => simp [dataPieces, Atom.pieces, PreHeader.pieces, Piece.u8]
    | _ => simp [dataPieces, Atom.pieces, Piece.u8, Piece.u16, Piece.u32, Piece.u64, Bytes.toLE]
  | .box ⟨⟨value, condition, tokens, registers, height⟩, tx, index⟩, _ => by
    simp [dataPieces, Box.pieces, Candidate.pieces, Piece.u64, Bytes.toLE]
  | .bytes b, _ => by simp [dataPieces, Piece.string, Piece.size, Bytes.toLE]
  | .seq t vs, _ => by simp [dataPieces, Piece.size, Bytes.toLE]
  | .tuple [], h => absurd rfl h.1
  | .tuple (v :: vs), h => by
    -- a tuple has no octets of its own, so those of its first part count
    have hfirst := join_dataPieces_ne_nil v h.2.1
    simp [dataPieces, dataPiecesAll, hfirst]
  | .option t none, _ => by simp [dataPieces, Piece.u8]
  | .option t (some v), _ => by simp [dataPieces, Piece.u8]

end Value

mutual

/-- A value is read from its data, inside an input of which at least one octet is gone. -/
theorem ValueType.faithful_dataDecoder {B : Nat → Decoder Box} (hB : Faithful n 1 B BoxRead) :
    ∀ (t : ValueType), t.Solid → ∀ {k : Nat}, 1 ≤ k →
      Faithful n k (fun l => t.dataDecoder (B l)) (DataRead t)
  | .atom a, _, _, hk => a.faithful_dataDecoder (hB.mono hk)
  | .coll t, ht, k, hk => by
    refine .ite (fun hbyte => ?_) fun _ => ?_
    · subst hbyte
      exact .map faithful_string fun
      | b, _, ⟨rfl, _⟩ =>
        ⟨rfl, by simp [Value.dataPieces, Piece.string, Piece.size], Value.has_bytes⟩
    · have hitem : Faithful n k (fun l => t.dataDecoder (B l)) (DataRead t) :=
        ValueType.faithful_dataDecoder hB t ht hk
      -- an announced count is bounded by the octets left, which needs an octet for each item
      have hne (v : Value) (c : Bytes) (h : DataRead t v c) : c ≠ [] := by
        obtain ⟨rfl, rfl, -⟩ := h
        exact v.join_dataPieces_ne_nil ht
      refine .countedThen hitem hne fun vs cs _ hvs => ?_
      obtain ⟨rfl, hgood⟩ := (hvs.imp fun _ _ h => h.2).spells
      refine .pure ⟨rfl, ?_, Value.has_seq.2 hgood⟩
      simp [Value.dataPieces, Value.dataPiecesAll_eq_flatMap, Piece.size]
  | .tuple ts, ht, _, hk =>
    .map (ValueType.faithful_dataDecoderAll hB ts ht.2 hk) fun
    | vs, _, ⟨hts, hc, hvs⟩ => ⟨by rw [Value.type, hts], hc, Value.has_tuple.2 hvs⟩
  | .option t, ht, _, hk => .bind (faithful_flagDecoder _) fun
    | flag, _, rfl => .ite
      (fun hsome => .map (ValueType.faithful_dataDecoder hB t ht (by omega)) fun
        | v, _, ⟨_, rfl, hv⟩ =>
          ⟨rfl, by simp [hsome, Value.dataPieces, Piece.u8], by simpa using hv⟩)
      fun hnone => .pure ⟨rfl, by simp [hnone, Value.dataPieces, Piece.u8], by simp⟩

theorem ValueType.faithful_dataDecoderAll {B : Nat → Decoder Box} (hB : Faithful n 1 B BoxRead) :
    ∀ (ts : List ValueType), SolidAll ts → ∀ {k : Nat}, 1 ≤ k →
      Faithful n k (fun l => ValueType.dataDecoderAll (B l) ts) fun vs c =>
        Value.typeAll vs = ts ∧
          Spells Value.dataPiecesAll (fun vs => ∀ v ∈ vs, v.Has Atom.Readable) vs c
  | [], _, _, _ => .pure ⟨rfl, rfl, by simp⟩
  | t :: ts, ht, _, hk => .bind (ValueType.faithful_dataDecoder hB t ht.1 hk) fun
    | v, _, ⟨hv, rfl, hgood⟩ =>
      .map (ValueType.faithful_dataDecoderAll hB ts ht.2 (by omega)) fun
      | vs, _, ⟨hvs, rfl, hall⟩ =>
        ⟨by rw [Value.typeAll, hv, hvs], by simp [Value.dataPiecesAll],
          List.forall_mem_cons.2 ⟨hgood, hall⟩⟩

end

/-- A value is read from its type and its data. -/
theorem Value.faithful_decoderWith {B : Nat → Decoder Box} (hB : Faithful n 1 B BoxRead) :
    Faithful n k (fun l => Value.decoderWith (B l)) ValueRead :=
  .bind ValueType.faithful_decoder fun
  | t, _, ⟨rfl, ht⟩ => by
    have hgone := List.length_pos_of_ne_nil t.join_pieces_ne_nil
    exact (ValueType.faithful_dataDecoder hB t ht (by omega)).imp fun v _ ⟨hv, h, hgood⟩ =>
      ⟨by rw [h, ← hv, Value.pieces, Piece.join_append], hgood⟩

/-! ## Expressions -/

namespace Expr

omit [Suite] in
theorem piecesAll_eq_flatMap (es : List Expr) : piecesAll es = es.flatMap pieces := by
  induction es with
  | nil => rfl
  | cons e es ih => rw [piecesAll, ih, List.flatMap_cons]

omit [Suite] in
theorem piecesDefs_eq_flatMap (ds : List (UInt32 × Expr)) :
    piecesDefs ds = ds.flatMap fun d => .u32 "id" d.1 :: d.2.pieces := by
  induction ds with
  | nil => rfl
  | cons d ds ih =>
    obtain ⟨i, e⟩ := d
    simp [piecesDefs, ih]

omit [Suite] in
/-- Every encoding starts with an opcode. -/
theorem join_pieces_ne_nil (e : Expr) : Piece.join e.pieces ≠ [] := by
  cases e with
  | byIndex c i default => cases default <;> simp [pieces, Piece.u8]
  | _ => simp [pieces, Piece.u8]

/-- The octets are the encoding of the expression, and all its atoms are readable. -/
abbrev Read : Expr → Bytes → Prop := Spells pieces (Has Atom.Readable)

/-- The octets follow the opcode in the encoding of the expression. -/
abbrev OperandsRead (op : Opcode) (e : Expr) (c : Bytes) : Prop :=
  op.code :: c = Piece.join e.pieces ∧ e.Has Atom.Readable

omit [Suite] in
theorem faithful_opcodeDecoder (version : UInt8) :
    Faithful n k (fun _ => opcodeDecoder version) fun op c => c = [op.code] :=
  .bind faithful_u8 fun
  | code, _, rfl => by
    split
    · exact .malformed _
    · rename_i op hop
      have hcode : op.code = code := by simpa using List.find?_some hop
      split
      · exact .fail _
      · exact .pure (by simp [hcode])

variable {V : Nat → Decoder Value} {S B : Nat → Decoder Expr}

theorem faithful_listDecoder (hS : Faithful n k S Read) :
    Faithful n k (fun l => listDecoder (S l)) (Spells
      (fun es => .size "n" es.length :: piecesAll es) fun es => ∀ e ∈ es, e.Has Atom.Readable) := by
  have hne (e : Expr) (c : Bytes) (h : Read e c) : c ≠ [] := h.1 ▸ e.join_pieces_ne_nil
  refine (hS.counted hne).imp fun es _ ⟨_, cs, h, hes⟩ => ?_
  obtain ⟨rfl, hgood⟩ := hes.spells
  exact ⟨by simp [h, piecesAll_eq_flatMap, Piece.size], hgood⟩

theorem faithful_defDecoder (hS : Faithful n k S Read) :
    Faithful n k (fun l => defDecoder (S l))
      (Spells (fun d => .u32 "id" d.1 :: d.2.pieces) fun d => d.2.Has Atom.Readable) :=
  .bind faithful_u32 fun
  | id, _, rfl => .map (hS.mono (Nat.le_add_right ..)) fun
  | e, _, ⟨rfl, he⟩ => ⟨by simp [Piece.u32], he⟩

/-- What follows an opcode is read, one case for each kind of node. -/
theorem faithful_operandDecoder (hV : Faithful n 0 V ValueRead) (hS : Faithful n 0 S Read)
    (hB : Faithful n 0 B Read) (op : Opcode) :
    Faithful n k (fun l => operandDecoder (V l) (S l) (B l) op) (OperandsRead op) := by
  have hV (k) : Faithful n k V ValueRead := hV.mono (Nat.zero_le k)
  have hS (k) : Faithful n k S Read := hS.mono (Nat.zero_le k)
  have hB (k) : Faithful n k B Read := hB.mono (Nat.zero_le k)
  cases op
  case const =>
    refine .map (hV _) ?_
    rintro v _ ⟨rfl, hv⟩
    exact ⟨by simp [pieces, Value.pieces, Piece.u8], hv⟩
  case placeholder =>
    refine .map faithful_u32 ?_
    rintro i _ rfl
    exact ⟨by simp [pieces, Piece.u8, Piece.u32], by simp [Has, atoms]⟩
  case use =>
    refine .map faithful_u32 ?_
    rintro i _ rfl
    exact ⟨by simp [pieces, Piece.u8, Piece.u32], by simp [Has, atoms]⟩
  case block =>
    -- definitions are counted too, and each begins with its number
    have hne (d : UInt32 × Expr) (c : Bytes)
        (h : Spells (fun d => .u32 "id" d.1 :: d.2.pieces) (fun d => d.2.Has Atom.Readable) d c) :
        c ≠ [] := by
      simp [h.1, Piece.u32, Bytes.toLE]
    refine .countedThen (faithful_defDecoder (hS _)) hne fun ds _ _ hds => .map (hS _) ?_
    rintro e _ ⟨rfl, he⟩
    obtain ⟨rfl, hall⟩ := hds.spells
    exact ⟨by simp [pieces, piecesDefs_eq_flatMap, Piece.u8, Piece.size],
      List.forall_mem_append.2 ⟨forall_atomsDefs.2 hall, he⟩⟩
  case variadic =>
    refine .map (faithful_listDecoder (hS _)) ?_
    rintro es _ ⟨rfl, hes⟩
    exact ⟨by simp [pieces, Piece.u8], forall_atomsAll.2 hes⟩
  case collOf =>
    refine .bind ValueType.faithful_decoder ?_
    rintro t _ ⟨rfl, -⟩
    refine .map (faithful_listDecoder (hS _)) ?_
    rintro es _ ⟨rfl, hes⟩
    exact ⟨by simp [pieces, Piece.u8], forall_atomsAll.2 hes⟩
  case context =>
    exact .pure ⟨by simp [pieces, Piece.u8], by simp [Has, atoms]⟩
  case getVar =>
    refine .bind faithful_u8 ?_
    rintro i _ rfl
    refine .map ValueType.faithful_decoder ?_
    rintro t _ ⟨rfl, -⟩
    exact ⟨by simp [pieces, Piece.u8], by simp [Has, atoms]⟩
  case unary =>
    refine .map (hS _) ?_
    rintro e _ ⟨rfl, he⟩
    exact ⟨by simp [pieces, Piece.u8], he⟩
  case register =>
    refine .bind (hS _) ?_
    rintro e _ ⟨rfl, he⟩
    refine .bind faithful_u8 ?_
    rintro i _ rfl
    -- the number is checked between the box and the type, and is written as it was read
    refine .check fun _ => .map ValueType.faithful_decoder ?_
    rintro t _ ⟨rfl, -⟩
    exact ⟨by simp [pieces, Piece.u8], he⟩
  case record kind =>
    refine .bind kind.faithful_fieldDecoder ?_
    -- the field's number is told apart within its kind, which the opcode gave
    rintro f _ ⟨hkind, rfl⟩
    refine .map (hS _) ?_
    rintro e _ ⟨rfl, he⟩
    exact ⟨by simp [pieces, Piece.u8, hkind], he⟩
  case binary =>
    refine .bind (hS _) ?_
    rintro a _ ⟨rfl, ha⟩
    refine .map (hS _) ?_
    rintro b _ ⟨rfl, hb⟩
    exact ⟨by simp [pieces, Piece.u8], List.forall_mem_append.2 ⟨ha, hb⟩⟩
  case ternary =>
    refine .bind (hS _) ?_
    rintro a _ ⟨rfl, ha⟩
    refine .bind (hS _) ?_
    rintro b _ ⟨rfl, hb⟩
    refine .map (hS _) ?_
    rintro c _ ⟨rfl, hc⟩
    exact ⟨by simp [pieces, Piece.u8],
      List.forall_mem_append.2 ⟨List.forall_mem_append.2 ⟨ha, hb⟩, hc⟩⟩
  case byIndex =>
    refine .bind (hS _) ?_
    rintro c _ ⟨rfl, hc⟩
    refine .bind (hS _) ?_
    rintro i _ ⟨rfl, hi⟩
    refine .bind (faithful_flagDecoder _) ?_
    rintro flag _ rfl
    -- the flag says whether a default follows
    refine .ite (fun hsome => ?_) fun hnone => ?_
    · refine .map (hS _) ?_
      rintro d _ ⟨rfl, hd⟩
      exact ⟨by simp [hsome, pieces, Piece.u8],
        List.forall_mem_append.2 ⟨List.forall_mem_append.2 ⟨hc, hi⟩, hd⟩⟩
    · exact .pure ⟨by simp [hnone, pieces, Piece.u8], List.forall_mem_append.2 ⟨hc, hi⟩⟩
  case loop =>
    -- the body of a lambda has a decoder of its own, one level further down
    refine .bind (hS _) ?_
    rintro c _ ⟨rfl, hc⟩
    refine .bind Signature.faithful_decoder ?_
    rintro s _ ⟨rfl, -⟩
    refine .map (hB _) ?_
    rintro b _ ⟨rfl, hb⟩
    exact ⟨by simp [pieces, Piece.u8], List.forall_mem_append.2 ⟨hc, hb⟩⟩
  case fold =>
    refine .bind (hS _) ?_
    rintro c _ ⟨rfl, hc⟩
    refine .bind (hS _) ?_
    rintro z _ ⟨rfl, hz⟩
    refine .bind Signature.faithful_decoder ?_
    rintro s _ ⟨rfl, -⟩
    refine .map (hB _) ?_
    rintro b _ ⟨rfl, hb⟩
    exact ⟨by simp [pieces, Piece.u8],
      List.forall_mem_append.2 ⟨List.forall_mem_append.2 ⟨hc, hz⟩, hb⟩⟩
  case selectField =>
    refine .bind (hS _) ?_
    rintro e _ ⟨rfl, he⟩
    refine .map faithful_u8 ?_
    rintro i _ rfl
    exact ⟨by simp [pieces, Piece.u8], he⟩
  case dhTuple =>
    refine .bind (hS _) ?_
    rintro g _ ⟨rfl, hg⟩
    refine .bind (hS _) ?_
    rintro h _ ⟨rfl, hh⟩
    refine .bind (hS _) ?_
    rintro u _ ⟨rfl, hu⟩
    refine .map (hS _) ?_
    rintro v _ ⟨rfl, hv⟩
    exact ⟨by simp [pieces, Piece.u8], List.forall_mem_append.2
      ⟨List.forall_mem_append.2 ⟨List.forall_mem_append.2 ⟨hg, hh⟩, hu⟩, hv⟩⟩
  case deserialize =>
    refine .bind faithful_u8 ?_
    rintro i _ rfl
    refine .map ValueType.faithful_decoder ?_
    rintro t _ ⟨rfl, -⟩
    exact ⟨by simp [pieces, Piece.u8], by simp [Has, atoms]⟩

theorem faithful_nodeDecoder (hV : Faithful n 0 V ValueRead) (version : UInt8)
    (hS : Faithful n 0 S Read) (hB : Faithful n 0 B Read) :
    Faithful n 0 (fun l => nodeDecoder (V l) version (S l) (B l)) Read :=
  .bind (faithful_opcodeDecoder version) fun
  | op, _, rfl => (faithful_operandDecoder hV hS hB op).imp fun _ _ h => h

/-- An expression is read, whatever the levels it may have. -/
theorem faithful_decoderWithin (hV : Faithful n 0 V ValueRead) (version : UInt8) (levels : Nat) :
    Faithful n 0 (fun l => decoderWithin (V l) version levels) Read := by
  induction levels using levels_induction with
  | tooDeep => exact .malformed _
  | node levels hsub hbody =>
    simp only [decoderWithin_succ]
    exact faithful_nodeDecoder hV version hsub hbody

theorem faithful_decoderWith (hV : Faithful n 0 V ValueRead) (version : UInt8) :
    Faithful n k (fun l => decoderWith (V l) version) Read :=
  (faithful_decoderWithin hV version _).mono (Nat.zero_le k)

end Expr

/-! ## Conditions -/

namespace Condition

variable {V : Nat → Decoder Value}

/-- The table of constants, where the header announces one. -/
def constantsPieces (header : UInt8) (constants : List Value) : List Piece :=
  if header &&& constantsFlag ≠ 0 then .size "n" constants.length :: Value.piecesAll constants
  else []

/-- The octets are the rest of a condition with this header, and all its atoms are readable. -/
abbrev BodyRead (header : UInt8) (c : Condition) (b : Bytes) : Prop :=
  ∃ constants root, c = .parsed header constants root ∧
    b = Piece.join (constantsPieces header constants ++ root.pieces) ∧ c.Has Atom.Readable

theorem faithful_constantsDecoder (hV : Faithful n k V ValueRead) (header : UInt8) :
    Faithful n k (fun l => constantsDecoder (V l) header)
      (Spells (constantsPieces header) fun vs => ∀ v ∈ vs, v.Has Atom.Readable) := by
  have hne (v : Value) (c : Bytes) (h : ValueRead v c) : c ≠ [] := by
    simp [h.1, Value.pieces, v.type.join_pieces_ne_nil]
  refine .ite (fun hflag => ?_) fun hflag => ?_
  · refine (hV.counted hne).imp fun vs _ ⟨_, cs, h, hvs⟩ => ?_
    obtain ⟨rfl, hgood⟩ := hvs.spells
    refine ⟨?_, hgood⟩
    simp [h, constantsPieces, if_pos hflag, Value.piecesAll_eq_flatMap, Piece.size]
  · exact .pure ⟨by simp [constantsPieces, if_neg hflag], by simp⟩

theorem faithful_bodyDecoder (hV : Faithful n 0 V ValueRead) (header : UInt8) :
    Faithful n k (fun l => bodyDecoder (V l) header) (BodyRead header) :=
  .check fun _ => .check fun _ => .check fun _ =>
    .bind (faithful_constantsDecoder (hV.mono (Nat.zero_le k)) header) fun
    | constants, _, ⟨rfl, hconstants⟩ => .map (Expr.faithful_decoderWith hV _) fun
    | root, _, ⟨rfl, hroot⟩ => ⟨constants, root, rfl, by simp,
      List.forall_mem_append.2 ⟨Value.forall_atomsAll.2 hconstants, hroot⟩⟩

/-- A condition that carries its length has it in front of its body. -/
theorem toBytes_of_bodyRead {header : UInt8} {c : Condition} {b : Bytes} (h : BodyRead header c b) :
    c.toBytes = header ::
      if header &&& sizeFlag ≠ 0 then (Piece.size "" b.length).octets ++ b else b := by
  obtain ⟨constants, root, rfl, rfl, -⟩ := h
  rw [toBytes, pieces]
  split <;> simp [constantsPieces, Piece.u8, Piece.string, Piece.size]

omit [Suite] in
/-- The length in front of a body is that of the body. -/
theorem eq_of_sizeDecoder {b rest : Bytes} {u : Unit} (h : sizeDecoder b = .ok (u, rest)) :
    b = (Piece.size "" rest.length).octets ++ rest ∧ rest.length ≤ Piece.maxSize := by
  obtain ⟨m, r, hsize, hrest⟩ := bind_eq_ok.1 h
  obtain ⟨c, rfl, ⟨rfl, hle⟩, -⟩ := Faithful.plain (fun _ => faithful_size) hsize
  obtain ⟨m', r', hremaining, hcheck⟩ := bind_eq_ok.1 hrest
  cases hremaining
  split at hcheck
  · cases hcheck
  · rename_i heq
    cases hcheck
    rw [← not_not.1 heq]
    exact ⟨rfl, hle⟩

/-- A whole string is read as a condition alike at all levels that suffice for it. -/
theorem ofBytesWith_steady (hV : Faithful n 0 V ValueRead) {b : Bytes} {l l' : Nat}
    (hn : b.length < n) (hl : b.length ≤ l) (hl' : b.length ≤ l') :
    ofBytesWith (V l) b = ofBytesWith (V l') b := by
  -- bodies are no longer than the whole, so one bound serves for both forms
  have hbody (header : UInt8) (body : Bytes) (hlen : body.length ≤ b.length) :
      (bodyDecoder (V l) header).exactly body = (bodyDecoder (V l') header).exactly body :=
    (faithful_bodyDecoder hV header).exactly_steady (k := 0) (by omega) (by omega) (by omega)
  cases b with
  | nil => simp only [ofBytesWith, u8, Outcome.error_bind]
  | cons header rest =>
    simp only [ofBytesWith, u8, Outcome.ok_bind]
    split
    · cases hsize : sizeDecoder rest with
      | error e => rw [Outcome.error_bind, Outcome.error_bind]
      | ok s =>
        have hrest := congrArg List.length (eq_of_sizeDecoder hsize).1
        rw [List.length_append] at hrest
        rw [Outcome.ok_bind, Outcome.ok_bind, hbody header s.2 (by rw [List.length_cons]; omega)]
    · exact hbody header rest (by simp)

/-- **A condition is its octets**: what is read from a whole string has it for its encoding, also
when its body cannot be read. -/
theorem ofBytesWith_taken (hV : Faithful n 0 V ValueRead) {b : Bytes} {l : Nat} {c : Condition}
    (hn : b.length < n) (hl : b.length ≤ l) (h : ofBytesWith (V l) b = .ok c) :
    c.toBytes = b ∧ c.Has Atom.Readable := by
  have hbody (header : UInt8) (body : Bytes) (c : Condition) (hlen : body.length ≤ b.length)
      (hrun : (bodyDecoder (V l) header).exactly body = .ok c) : BodyRead header c body :=
    (faithful_bodyDecoder hV header).exactly_taken (k := 0) (by omega) (by omega) hrun
  cases b with
  | nil => simp only [ofBytesWith, u8, Outcome.error_bind, reduceCtorEq] at h
  | cons header rest =>
    simp only [ofBytesWith, u8, Outcome.ok_bind] at h
    split at h
    · rename_i hflag
      obtain ⟨⟨u, body⟩, hsize, hrun⟩ := Outcome.bind_eq_ok.1 h
      have hrest := (eq_of_sizeDecoder hsize).1
      have hlen := congrArg List.length hrest
      rw [List.length_append] at hlen
      split at hrun
      · rename_i c' hc
        cases hrun
        have hread := hbody header body c (by rw [List.length_cons]; omega) hc
        obtain ⟨_, _, _, _, hgood⟩ := id hread
        exact ⟨by rw [toBytes_of_bodyRead hread, if_pos hflag, ← hrest], hgood⟩
      · cases hrun
        -- what is left unread is kept as it stands, and names no atom
        exact ⟨by simp [toBytes, pieces], by simp [Has, atoms]⟩
    · rename_i hflag
      have hread := hbody header rest c (by simp) h
      obtain ⟨_, _, _, _, hgood⟩ := id hread
      exact ⟨by rw [toBytes_of_bodyRead hread, if_neg hflag], hgood⟩

end Condition

/-! ## Boxes -/

omit [Suite] in
theorem Token.faithful_decoder :
    Faithful n k (fun _ => Token.decoder) (Spells Token.pieces fun _ => True) :=
  .bind faithful_octets fun
  | id, _, rfl => .map faithful_u64 fun
  | amount, _, rfl => ⟨by simp [Token.pieces, Piece.block, Piece.u64], trivial⟩

/-- The octets are the encoding of the output, and all its atoms are readable. -/
abbrev CandidateRead : Candidate → Bytes → Prop :=
  Spells Candidate.pieces (Candidate.Has Atom.Readable)

/-- An output is read; its condition has levels enough, being part of the same input. -/
theorem Candidate.faithful_decoderWith {V : Nat → Decoder Value} (hV : Faithful n 0 V ValueRead) :
    Faithful n k (fun l => Candidate.decoderWith (V l)) CandidateRead :=
  .bind faithful_u64 fun
  | amount, _, rfl => .bind faithful_string fun script _ ⟨hscript, _⟩ => by
    subst hscript
    have hshort : script.length ≤ (Piece.join (Piece.string "" script)).length := by
      simp [Piece.string]
    -- the condition is read from octets that were taken out before, so it takes none itself
    have hcondition : Faithful n (k + (Bytes.toLE 8 amount.toNat).length +
          (Piece.join (Piece.string "" script)).length)
        (fun l => Decoder.lift (Condition.ofBytesWith (V l) script))
        fun c b => b = [] ∧ c.toBytes = script ∧ c.Has Atom.Readable :=
      .lift
        (fun l l' hn hl hl' => Condition.ofBytesWith_steady hV (by omega) (by omega) (by omega))
        (fun l c hn hl h => Condition.ofBytesWith_taken hV (by omega) (by omega) h)
    exact .bind hcondition fun
    | condition, _, ⟨rfl, rfl, hcondition⟩ => .bind faithful_u32 fun
    | height, _, rfl => .bind faithful_size fun
    | count, _, ⟨rfl, _⟩ => .check fun _ => .bind (Token.faithful_decoder.replicate count) fun
    | tokens, _, ⟨htokens, hstrung⟩ => .bind faithful_size fun
    | count', _, ⟨rfl, _⟩ => .check fun _ =>
      .map ((hV.mono (Nat.zero_le _)).replicate count') fun
    | registers, _, ⟨hregisters, hstrung'⟩ => by
      obtain ⟨rfl, -⟩ := hstrung.spells
      obtain ⟨rfl, hgood⟩ := hstrung'.spells
      subst htokens hregisters
      refine ⟨?_, hcondition, hgood⟩
      simp [pieces, Piece.u64, Piece.u32, Piece.string, Piece.size, Condition.toBytes,
        Value.piecesAll_eq_flatMap]

omit [Suite] in
/-- An output index is written with more octets than it needs. -/
theorem toUInt32_toUInt16 {i : UInt32} (h : ¬0xffff < i) : i.toUInt16.toUInt32 = i := by
  have hle : i.toNat ≤ 0xffff := UInt32.le_iff_toNat_le.1 (UInt32.not_lt.1 h)
  apply UInt32.toNat_inj.1
  rw [UInt16.toNat_toUInt32, UInt32.toNat_toUInt16, Nat.mod_eq_of_lt (Nat.lt_succ_of_le hle)]

theorem Box.faithful_decoderWith {V : Nat → Decoder Value} (hV : Faithful n 0 V ValueRead) :
    Faithful n 0 (fun l => Box.decoderWith (V l)) BoxRead :=
  .bind (Candidate.faithful_decoderWith hV) fun
  | candidate, _, ⟨rfl, hcandidate⟩ => .bind faithful_octets fun
  | tx, _, rfl => .bind faithful_u32 fun
  | index, _, rfl => .check fun hindex => .pure
    ⟨by simp [pieces, Piece.block, Piece.u32, toUInt32_toUInt16 hindex], hcandidate⟩

/-- **Nested boxes**: with a level for each octet, boxes inside boxes are read however deep they
are. -/
theorem Box.faithful_decoderWithin (n : Nat) : Faithful n 1 Box.decoderWithin BoxRead := by
  induction n with
  | zero =>
    exact ⟨fun hn => absurd hn (Nat.not_lt_zero _), fun hn => absurd hn (Nat.not_lt_zero _)⟩
  | succ n ih =>
    -- what the box holds is behind its first octet
    exact .succ (Box.faithful_decoderWith (Value.faithful_decoderWith ih))

/-! ## Readers that need nothing else -/

/-- Boxes are read again, whatever follows them. -/
theorem Box.faithful_decoder : Faithful n k (fun _ => Box.decoder) BoxRead :=
  (Faithful.levelled Box.faithful_decoderWithin).imp fun _ _ h => h.1

/-- The value is read back from its encoding, and all its atoms are readable. -/
def Value.Readable (v : Value) : Prop := v.Has Atom.Readable ∧ Reads Value.decoder v.toBytes v

/-- Values are read again, whatever follows them. -/
theorem Value.faithful_decoder :
    Faithful n k (fun _ => Value.decoder) (Spells pieces Value.Readable) :=
  (Faithful.levelled fun n => Value.faithful_decoderWith (Box.faithful_decoderWithin n)).imp fun
  | _, _, ⟨⟨rfl, hv⟩, hreads⟩ => ⟨rfl, hv, hreads⟩

/-- The output is read back from its encoding, and all its atoms are readable. -/
def Candidate.Readable (c : Candidate) : Prop :=
  c.Has Atom.Readable ∧ Reads Candidate.decoder c.toBytes c

/-- Outputs are read again, whatever follows them. -/
theorem Candidate.faithful_decoder :
    Faithful n k (fun _ => Candidate.decoder) (Spells pieces Candidate.Readable) :=
  (Faithful.levelled fun n => Candidate.faithful_decoderWith
    (Value.faithful_decoderWith (Box.faithful_decoderWithin n))).imp fun
  | _, _, ⟨⟨rfl, hc⟩, hreads⟩ => ⟨rfl, hc, hreads⟩

/-- A condition that was read is its octets. -/
theorem Condition.toBytes_of_ofBytes {b : Bytes} {c : Condition} (h : Condition.ofBytes b = .ok c) :
    c.toBytes = b :=
  have hV := Value.faithful_decoderWith (Box.faithful_decoderWithin (b.length + 1))
  (Condition.ofBytesWith_taken hV (Nat.lt_succ_self _) (Nat.le_succ _) h).1

/-- Expressions are read again, whatever follows them. -/
theorem Expr.faithful_decoder (version : UInt8) :
    Faithful n k (fun _ => Expr.decoder version) (Spells pieces (Expr.Has Atom.Readable)) :=
  (Faithful.levelled fun n => Expr.faithful_decoderWith
    (Value.faithful_decoderWith (Box.faithful_decoderWithin n)) version).imp fun _ _ h => h.1

/-- A whole string that is an expression is its encoding. -/
theorem Expr.toBytes_of_exactly {version : UInt8} {b : Bytes} {e : Expr}
    (h : (Expr.decoder version).exactly b = .ok e) : e.toBytes = b ∧ e.Has Atom.Readable := by
  obtain ⟨_, hb, ⟨rfl, hgood⟩, -⟩ :=
    Faithful.plain (fun _ => Expr.faithful_decoder version) (exactly_eq_ok.1 h)
  exact ⟨by simpa [Expr.toBytes] using hb.symm, hgood⟩

/-- Every script that can be decoded has readable atoms. -/
theorem has_of_decodeScript {version : UInt8} {b : Bytes} {e : Expr}
    (h : decodeScript version b = .ok e) : e.Has Atom.Readable :=
  (Expr.toBytes_of_exactly (decodeScript_eq_ok.1 h)).2

end Covenant

/-
  PLACES — where a reader stops for want of a newer version.

  An octet stands for an operation only where an operation is read, and for a header only in front of
  a condition; elsewhere the same octet may be part of a number, a length or a point.  So whether
  octets ask for a newer version is a question about the places that a reader comes to.

  A reader of nested things is put together from readers of their parts.  To find the places, let one
  of these fail on one input: if the failure comes through, whatever it is, then the reader comes to
  this input and takes it for such a part (`Decoder.ComesTo`).

  1. **`Decoder.Relays I F`** — the reader `F` has no failures of this kind of its own: it comes to the
     input that one of its parts, numbered from `I`, fails on.  Sequences, checks and repetitions keep
     this.
  2. **`NeedsNewer n site b e`** — read as `site`, the octets have a place that `e` complains of; found
     by going from a node to its operands, from a value to the boxes in it, and from a box to its script
     and its registers.
  3. **`needsNewer_iff`** — these are exactly the failures that ask for a newer version.
-/
import Covenant.Proofs.Script.Newer
import Covenant.Proofs.Script.Restoring

namespace Covenant

namespace Decoder

variable {α β γ : Type}

/-! ## Readers of parts -/

/-- The readers of a family, except that the one at `i` fails on the input `s`. -/
def refusing (d : Nat → Decoder α) (i : Nat) (s : Bytes) (e : CodecError) : Nat → Decoder α :=
  fun j b => if j = i ∧ b = s then .error e else d j b

/-- From the octets `b` on, the reader `F` comes to read `s` with the member of the family at `i`: a
failure to do so is one of `F`, whatever the failure is. -/
def ComesTo (F : (Nat → Decoder α) → Decoder β) (d : Nat → Decoder α) (b : Bytes) (i : Nat)
    (s : Bytes) : Prop :=
  ∀ e, F (refusing d i s e) b = .error e

theorem refusing_self {d : Nat → Decoder α} {i : Nat} {s : Bytes} {e : CodecError}
    (h : d i s = .error e) : refusing d i s e = d := by
  funext j b
  unfold refusing
  split
  · rename_i heq
    rw [heq.1, heq.2, h]
  · rfl

/-- What fails on the way is the outcome. -/
theorem ComesTo.fails {F : (Nat → Decoder α) → Decoder β} {d : Nat → Decoder α} {b s : Bytes}
    {i : Nat} {e : CodecError} (h : ComesTo F d b i s) (hfails : d i s = .error e) :
    F d b = .error e := by
  have hrun := h e
  rwa [refusing_self hfails] at hrun

/-- The reader asks for a newer version only where it comes to a part, read by a member of the family
with a number from `I`, that does.  What it yields stays the same as long as its parts do. -/
structure Relays (I : List Nat) (F : (Nat → Decoder α) → Decoder β) : Prop where
  agree : ∀ {d d' : Nat → Decoder α} {b : Bytes} {x : β × Bytes},
    (∀ i s y, d i s = .ok y → d' i s = .ok y) → F d b = .ok x → F d' b = .ok x
  reason : ∀ {d : Nat → Decoder α} {b : Bytes} {e : CodecError}, F d b = .error e → e.Newer →
    ∃ i ∈ I, ∃ s, d i s = .error e ∧ ComesTo F d b i s

namespace Relays

variable {I : List Nat} {F : (Nat → Decoder α) → Decoder β}

/-- A reader without such parts, and without failures of this kind. -/
theorem plain {x : Decoder β} (h : Asks False x) : Relays I fun _ : Nat → Decoder α => x where
  agree _ hrun := hrun
  reason hrun hnewer := (h.reason hrun hnewer).elim

theorem part {i : Nat} (h : i ∈ I) : Relays I fun d : Nat → Decoder α => d i where
  agree hsame hrun := hsame _ _ _ hrun
  reason {d b e} hrun hnewer := by
    refine ⟨i, h, b, hrun, fun e' => ?_⟩
    exact if_pos ⟨rfl, rfl⟩

theorem bind {G : (Nat → Decoder α) → β → Decoder γ} (hF : Relays I F)
    (hG : ∀ a, Relays I fun d => G d a) : Relays I fun d => F d >>= G d where
  agree {d d' b x} hsame hrun := by
    obtain ⟨v, r⟩ := x
    obtain ⟨a, m, hfirst, hthen⟩ := bind_eq_ok.1 hrun
    exact bind_eq_ok.2 ⟨a, m, hF.agree hsame hfirst, (hG a).agree hsame hthen⟩
  reason {d b e} hrun hnewer := by
    rcases bind_eq_error.1 hrun with hfirst | ⟨a, m, hfirst, hthen⟩
    · obtain ⟨i, hi, s, hs, hcomes⟩ := hF.reason hfirst hnewer
      exact ⟨i, hi, s, hs, fun e' => bind_eq_error.2 (.inl (hcomes e'))⟩
    · obtain ⟨i, hi, s, hs, hcomes⟩ := (hG a).reason hthen hnewer
      refine ⟨i, hi, s, hs, fun e' => bind_eq_error.2 (.inr ⟨a, m, ?_, hcomes e'⟩)⟩
      -- the first step gets through without the part that fails
      refine hF.agree (fun j t y hy => ?_) hfirst
      have hother : ¬(j = i ∧ t = s) := by
        rintro ⟨rfl, rfl⟩
        cases hs.symm.trans hy
      rw [refusing, if_neg hother, hy]

theorem ite {c : Prop} [Decidable c] {G : (Nat → Decoder α) → Decoder β} (hF : Relays I F)
    (hG : Relays I G) : Relays I fun d => if c then F d else G d := by
  by_cases h : c
  · simpa only [if_pos h] using hF
  · simpa only [if_neg h] using hG

theorem check {c : Prop} [Decidable c] {defect : FormatDefect}
    (hdefect : ¬(CodecError.invalidFormat defect).Newer) (hF : Relays I F) :
    Relays I fun d => if c then Decoder.malformed defect >>= fun _ : PUnit => F d else F d :=
  ite (bind (plain (.malformed hdefect)) fun _ => hF) hF

theorem replicate (hF : Relays I F) (k : Nat) : Relays I fun d => Decoder.replicate k (F d) := by
  induction k with
  | zero => exact plain (.pure _)
  | succ k ih => exact bind hF fun _ => bind ih fun _ => plain (.pure _)

end Relays

end Decoder

open Decoder

/-! ## Values -/

/-- Only boxes are read by the reader of boxes. -/
theorem AtomType.dataDecoder_eq [Suite] {a : AtomType} (h : a ≠ .box) (x y : Decoder Box) :
    a.dataDecoder x = a.dataDecoder y := by
  cases a <;> first | rfl | exact absurd rfl h

section

variable [Suite] {n : Nat}

theorem AtomType.relays_dataDecoder (a : AtomType) :
    Relays [n] fun d => a.dataDecoder (d n) := by
  by_cases h : a = .box
  · subst h
    exact .bind (.part List.mem_cons_self) fun _ => .plain (.pure _)
  · have hother (x : Decoder Box) : a.dataDecoder x = a.dataDecoder (throw .unexpectedEnd) :=
      dataDecoder_eq h _ _
    simp only [hother]
    exact .plain (a.asks_dataDecoder (.fail (e := .unexpectedEnd) not_false))

mutual

theorem ValueType.relays_dataDecoder : (t : ValueType) →
    Relays [n] fun d => t.dataDecoder (d n)
  | .atom a => a.relays_dataDecoder
  | .coll t => .ite (.bind (.plain .string) fun _ => .plain (.pure _))
      (.bind (.plain .count) fun k => .bind (.replicate (ValueType.relays_dataDecoder t) k)
        fun _ => .plain (.pure _))
  | .tuple ts => .bind (ValueType.relays_dataDecoderAll ts) fun _ => .plain (.pure _)
  | .option t => .bind (.plain (asks_flagDecoder not_false)) fun _ =>
      .ite (.bind (ValueType.relays_dataDecoder t) fun _ => .plain (.pure _)) (.plain (.pure _))

theorem ValueType.relays_dataDecoderAll : (ts : List ValueType) →
    Relays [n] fun d => ValueType.dataDecoderAll (d n) ts
  | [] => .plain (.pure _)
  | t :: ts => .bind (ValueType.relays_dataDecoder t) fun _ =>
      .bind (ValueType.relays_dataDecoderAll ts) fun _ => .plain (.pure _)

end

/-- A value asks for a newer version where a box in it does. -/
theorem Value.relays_decoderWith : Relays [n] fun d => Value.decoderWith (d n) :=
  .bind (.plain ValueType.asks_decoder) fun t => t.relays_dataDecoder

end

/-! ## Expressions -/

namespace Expr

variable {value : Decoder Value} {I : List Nat} {l l' : Nat}

/-- **What follows an opcode** asks for a newer version where an operand or the body of a function
does, unless it is a constant. -/
theorem relays_operandDecoder (hl : l ∈ I) (hl' : l' ∈ I) {op : Opcode} (hop : op ≠ .const) :
    Relays I fun d => operandDecoder value (d l) (d l') op := by
  have hsub : Relays I fun d : Nat → Decoder Expr => d l := .part hl
  have hbody : Relays I fun d : Nat → Decoder Expr => d l' := .part hl'
  have hlist : Relays I fun d => listDecoder (d l) := .bind (.plain .count) fun k => hsub.replicate k
  have hdef : Relays I fun d => defDecoder (d l) :=
    .bind (.plain .u32) fun _ => .bind hsub fun _ => .plain (.pure _)
  -- types and signatures hold no expression, so they are read the same way everywhere
  have htype : Relays I fun _ : Nat → Decoder Expr => ValueType.decoder :=
    .plain ValueType.asks_decoder
  have hsignature : Relays I fun _ : Nat → Decoder Expr => Signature.decoder :=
    .plain Signature.asks_decoder
  cases op with
  | const => exact absurd rfl hop
  | placeholder | use => exact .bind (.plain .u32) fun _ => .plain (.pure _)
  | context => exact .plain (.pure _)
  | getVar | deserialize =>
    exact .bind (.plain .u8) fun _ => .bind htype fun _ => .plain (.pure _)
  | block =>
    exact .bind (.plain .count) fun k => .bind (hdef.replicate k) fun _ => .bind hsub fun _ =>
      .plain (.pure _)
  | variadic => exact .bind hlist fun _ => .plain (.pure _)
  | collOf => exact .bind htype fun _ => .bind hlist fun _ => .plain (.pure _)
  | unary => exact .bind hsub fun _ => .plain (.pure _)
  | selectField => exact .bind hsub fun _ => .bind (.plain .u8) fun _ => .plain (.pure _)
  | register =>
    exact .bind hsub fun _ => .bind (.plain .u8) fun _ => .check not_false
      (.bind htype fun _ => .plain (.pure _))
  | record k =>
    exact .bind (.plain k.asks_fieldDecoder) fun _ => .bind hsub fun _ => .plain (.pure _)
  | binary => exact .bind hsub fun _ => .bind hsub fun _ => .plain (.pure _)
  | ternary => exact .bind hsub fun _ => .bind hsub fun _ => .bind hsub fun _ => .plain (.pure _)
  | byIndex =>
    exact .bind hsub fun _ => .bind hsub fun _ => .bind (.plain (asks_flagDecoder not_false))
      fun _ => .ite (.bind hsub fun _ => .plain (.pure _)) (.plain (.pure _))
  | loop =>
    exact .bind hsub fun _ => .bind hsignature fun _ => .bind hbody fun _ => .plain (.pure _)
  | fold =>
    exact .bind hsub fun _ => .bind hsub fun _ => .bind hsignature fun _ => .bind hbody fun _ =>
      .plain (.pure _)
  | dhTuple =>
    exact .bind hsub fun _ => .bind hsub fun _ => .bind hsub fun _ => .bind hsub fun _ =>
      .plain (.pure _)

/-- An operation is refused for its octet: it stands for none, or for a later one. -/
theorem opcodeDecoder_eq_error {version : UInt8} {b : Bytes} {e : CodecError} :
    opcodeDecoder version b = .error e ∧ e.Newer ↔ ∃ code rest, b = code :: rest ∧
      (Opcode.ofCode? code = none ∧ e = .invalidFormat .opcode ∨
        ∃ op, Opcode.ofCode? code = some op ∧ version < op.since ∧ e = .unsupportedOpcode code) := by
  constructor
  · rintro ⟨hrun, hnewer⟩
    cases b with
    | nil =>
      cases hrun
      exact hnewer.elim
    | cons code rest =>
      refine ⟨code, rest, rfl, ?_⟩
      simp only [opcodeDecoder, bind_apply, u8, Outcome.ok_bind] at hrun
      cases hop : Opcode.ofCode? code with
      | none =>
        simp only [hop] at hrun
        cases hrun
        exact .inl ⟨rfl, rfl⟩
      | some op =>
        have hcode : op.code = code := by simpa using List.find?_some hop
        simp only [hop] at hrun
        split at hrun
        · -- the failure names the code of the operation, which is the octet read
          rename_i hlt
          cases hrun
          exact .inr ⟨op, rfl, hlt, by rw [hcode]⟩
        · cases hrun
  · rintro ⟨code, rest, rfl, ⟨hop, rfl⟩ | ⟨op, hop, hlt, rfl⟩⟩
    · refine ⟨?_, trivial⟩
      simp only [opcodeDecoder, bind_apply, u8, Outcome.ok_bind, hop]
      rfl
    · have hcode : op.code = code := by simpa using List.find?_some hop
      refine ⟨?_, trivial⟩
      simp only [opcodeDecoder, bind_apply, u8, Outcome.ok_bind, hop, if_pos hlt, hcode]
      rfl

end Expr

/-! ## Boxes -/

namespace Candidate

/-- Reads an output up to its registers, and how many these are. -/
def frontDecoder (value : Decoder Value) : Decoder (Candidate × Nat) := do
  let amount ← Decoder.u64
  let script ← Decoder.string
  let condition ← Decoder.lift (Condition.ofBytesWith value script)
  let height ← Decoder.u32
  let n ← Decoder.size
  if maxTokens < n then Decoder.malformed .tooManyTokens
  let tokens ← Decoder.replicate n Token.decoder
  let m ← Decoder.size
  if maxRegisters < m then Decoder.malformed .tooManyRegisters
  return (⟨amount, condition, tokens, [], height⟩, m)

theorem decoderWith_eq (value : Decoder Value) : decoderWith value = (do
    let (c, m) ← frontDecoder value
    let registers ← Decoder.replicate m value
    return { c with registers }) := by
  have hcheck {α β : Type} {c : Prop} [Decidable c] {x : Decoder PUnit} {y : Decoder α}
      {f : α → Decoder β} : (if c then x >>= fun _ => y else y) >>= f =
        if c then x >>= fun _ => y >>= f else y >>= f := by
    split
    · rw [bind_assoc]
    · rfl
  simp only [decoderWith, frontDecoder, bind_assoc, pure_bind, hcheck]

/-- Before its registers an output asks for a newer version in its script only. -/
theorem frontDecoder_eq_error {value : Decoder Value} {b : Bytes} {e : CodecError}
    (hnewer : e.Newer) : frontDecoder value b = .error e ↔
      ∃ amount m script rest, Decoder.u64 b = .ok (amount, m) ∧
        Decoder.string m = .ok (script, rest) ∧ Condition.ofBytesWith value script = .error e := by
  -- everything around the condition fails for its own reasons only, never for a newer version
  have hamount : Asks False Decoder.u64 := .u64
  have hstring : Asks False Decoder.string := .string
  have hlift {x : Except CodecError Condition} {r : Bytes} :
      Decoder.lift x r = .error e ↔ x = .error e := by
    cases x <;> simp [Decoder.lift, Except.map]
  have hrest (amount : UInt64) (c : Condition) : Asks False (do
      let height ← Decoder.u32
      let n ← Decoder.size
      if maxTokens < n then Decoder.malformed .tooManyTokens
      let tokens ← Decoder.replicate n Token.decoder
      let m ← Decoder.size
      if maxRegisters < m then Decoder.malformed .tooManyRegisters
      return ((⟨amount, c, tokens, [], height⟩, m) : Candidate × Nat)) :=
    .bind .u32 fun _ => .bind (.number 4) fun n => .check not_false
    (.bind (Token.asks_decoder.replicate n) fun _ => .bind (.number 4) fun m =>
    .check not_false (.pure _))
  constructor
  · intro h
    rcases bind_eq_error.1 h with h | ⟨amount, m, hm, h⟩
    · exact (hamount.reason h hnewer).elim
    rcases bind_eq_error.1 h with h | ⟨script, r, hr, h⟩
    · exact (hstring.reason h hnewer).elim
    rcases bind_eq_error.1 h with h | ⟨c, r', -, h⟩
    · exact ⟨amount, m, script, r, hm, hr, hlift.1 h⟩
    · exact ((hrest amount c).reason h hnewer).elim
  · rintro ⟨amount, m, script, r, hm, hr, hcondition⟩
    refine bind_eq_error.2 (.inr ⟨amount, m, hm, bind_eq_error.2 (.inr ⟨script, r, hr, ?_⟩)⟩)
    exact bind_eq_error.2 (.inl (hlift.2 hcondition))

end Candidate

/-! ## Places that ask for a newer version -/

/-- What octets are read as. -/
inductive Site
  | value | box
  /-- A condition of the length that the octets have. -/
  | condition
  /-- What stands behind the header of a condition, and behind the length if there is one. -/
  | body (header : UInt8)
  /-- An expression of a script version, of at most so many levels. -/
  | expression (version : UInt8) (levels : Nat)

/-- A header that a body is read for. -/
structure Condition.Current (header : UInt8) : Prop where
  reserved : header &&& reservedBits = 0
  version_le : header &&& versionMask ≤ maxScriptVersion
  sized : ¬(0 < header &&& versionMask ∧ header &&& sizeFlag = 0)

section

variable [Suite]

/-- Read as `site`, with at most `n` boxes inside one another, the octets have a place that the
failure complains of, and the reader comes to it before it fails for any other reason. -/
inductive NeedsNewer : Nat → Site → Bytes → CodecError → Prop
  /-- An octet that stands for no operation, read as one. -/
  | unknown {n levels : Nat} {v code : UInt8} {rest : Bytes} (h : Opcode.ofCode? code = none) :
      NeedsNewer n (.expression v (levels + 1)) (code :: rest) (.invalidFormat .opcode)
  /-- An operation of a later version. -/
  | later {n levels : Nat} {v code : UInt8} {rest : Bytes} {op : Opcode}
      (h : Opcode.ofCode? code = some op) (hlt : v < op.since) :
      NeedsNewer n (.expression v (levels + 1)) (code :: rest) (.unsupportedOpcode code)
  /-- An operand or the body of a function. -/
  | operand {n levels i : Nat} {v : UInt8} {b m s : Bytes} {op : Opcode} {e : CodecError}
      (hop : Expr.opcodeDecoder v b = .ok (op, m))
      (comes : ComesTo
        (fun d => Expr.operandDecoder (Value.decoderWithin n) (d levels) (d (levels - 1)) op)
        (Expr.decoderWithin (Value.decoderWithin n) v) m i s)
      (there : NeedsNewer n (.expression v i) s e) :
      NeedsNewer n (.expression v (levels + 1)) b e
  | constant {n levels : Nat} {v : UInt8} {b m : Bytes} {e : CodecError}
      (hop : Expr.opcodeDecoder v b = .ok (.const, m)) (there : NeedsNewer n .value m e) :
      NeedsNewer n (.expression v (levels + 1)) b e
  /-- A box that is the value or part of it. -/
  | box {n : Nat} {b s : Bytes} {e : CodecError}
      (comes : ComesTo (fun d => Value.decoderWith (d n)) Box.decoderWithin b n s)
      (there : NeedsNewer n .box s e) : NeedsNewer n .value b e
  /-- The script of a box, behind the amount. -/
  | script {n : Nat} {b m s r : Bytes} {amount : UInt64} {e : CodecError}
      (hamount : Decoder.u64 b = .ok (amount, m)) (hscript : Decoder.string m = .ok (s, r))
      (there : NeedsNewer n .condition s e) : NeedsNewer (n + 1) .box b e
  | register {n k : Nat} {b m s : Bytes} {c : Candidate} {e : CodecError}
      (hfront : Candidate.frontDecoder (Value.decoderWithin n) b = .ok ((c, k), m))
      (comes : ComesTo (fun d => Decoder.replicate k (d n)) Value.decoderWithin m n s)
      (there : NeedsNewer n .value s e) : NeedsNewer (n + 1) .box b e
  /-- A condition that announces its length is kept when it cannot be read, so only another one fails
  for this reason. -/
  | unsized {n : Nat} {header : UInt8} {rest : Bytes} {e : CodecError}
      (h : header &&& Condition.sizeFlag = 0) (there : NeedsNewer n (.body header) rest e) :
      NeedsNewer n .condition (header :: rest) e
  /-- A header that announces an unknown version. -/
  | version {n : Nat} {header : UInt8} {b : Bytes} (h : header &&& Condition.reservedBits = 0)
      (hlt : maxScriptVersion < header &&& Condition.versionMask) :
      NeedsNewer n (.body header) b (.invalidFormat .scriptVersion)
  /-- A value in the table of constants. -/
  | table {n : Nat} {header : UInt8} {b s : Bytes} {e : CodecError}
      (current : Condition.Current header)
      (comes : ComesTo (fun d => Condition.constantsDecoder (d n) header) Value.decoderWithin b n s)
      (there : NeedsNewer n .value s e) : NeedsNewer n (.body header) b e
  | root {n : Nat} {header : UInt8} {b m : Bytes} {cs : List Value} {e : CodecError}
      (current : Condition.Current header)
      (htable : Condition.constantsDecoder (Value.decoderWithin n) header b = .ok (cs, m))
      (there : NeedsNewer n (.expression (header &&& Condition.versionMask) (maxExprDepth + 1)) m e) :
      NeedsNewer n (.body header) b e

/-- Reading the octets as `site` fails. -/
def Site.Fails (n : Nat) : Site → Bytes → CodecError → Prop
  | .value, b, e => Value.decoderWithin n b = .error e
  | .box, b, e => Box.decoderWithin n b = .error e
  | .condition, b, e => Condition.ofBytesWith (Value.decoderWithin n) b = .error e
  | .body header, b, e => Condition.bodyDecoder (Value.decoderWithin n) header b = .error e
  | .expression v levels, b, e => Expr.decoderWithin (Value.decoderWithin n) v levels b = .error e

/-! ## One step -/

omit [Suite] in
/-- A body fails because of its header, or in the table, or in the expression. -/
theorem Condition.bodyDecoder_eq_error {value : Decoder Value} {header : UInt8} {b : Bytes}
    {e : CodecError} (hnewer : e.Newer) : bodyDecoder value header b = .error e ↔
      (header &&& reservedBits = 0 ∧ maxScriptVersion < header &&& versionMask ∧
        e = .invalidFormat .scriptVersion) ∨
      (Current header ∧ (constantsDecoder value header b = .error e ∨
        ∃ cs m, constantsDecoder value header b = .ok (cs, m) ∧
          Expr.decoderWith value (header &&& versionMask) m = .error e)) := by
  constructor
  · intro h
    rcases check_eq_error.1 h with ⟨-, rfl⟩ | ⟨hreserved, h⟩
    · exact hnewer.elim
    -- of the three checks of the header only the second one asks for a newer version
    rcases check_eq_error.1 h with ⟨hversion, rfl⟩ | ⟨hversion, h⟩
    · exact .inl ⟨not_not.1 hreserved, hversion, rfl⟩
    rcases check_eq_error.1 h with ⟨-, rfl⟩ | ⟨hsized, h⟩
    · exact hnewer.elim
    refine .inr ⟨⟨not_not.1 hreserved, UInt8.not_lt.1 hversion, hsized⟩, ?_⟩
    rcases bind_eq_error.1 h with h | ⟨cs, m, hcs, h⟩
    · exact .inl h
    rcases bind_eq_error.1 h with h | ⟨root, r, -, h⟩
    · exact .inr ⟨cs, m, hcs, h⟩
    · cases h
  · rintro (⟨hreserved, hversion, rfl⟩ | ⟨hcurrent, h⟩)
    · refine check_eq_error.2 (.inr ⟨not_not.2 hreserved, ?_⟩)
      exact check_eq_error.2 (.inl ⟨hversion, rfl⟩)
    · refine check_eq_error.2 (.inr ⟨not_not.2 hcurrent.reserved, ?_⟩)
      refine check_eq_error.2 (.inr ⟨UInt8.not_lt.2 hcurrent.version_le, ?_⟩)
      refine check_eq_error.2 (.inr ⟨hcurrent.sized, bind_eq_error.2 ?_⟩)
      rcases h with h | ⟨cs, m, hcs, h⟩
      · exact .inl h
      · exact .inr ⟨cs, m, hcs, bind_eq_error.2 (.inl h)⟩

omit [Suite] in
/-- A condition fails for this reason only when it announces no length. -/
theorem Condition.ofBytesWith_eq_error {value : Decoder Value} {b : Bytes} {e : CodecError}
    (hnewer : e.Newer) : ofBytesWith value b = .error e ↔ ∃ header rest, b = header :: rest ∧
      header &&& sizeFlag = 0 ∧ bodyDecoder value header rest = .error e := by
  constructor
  · intro h
    cases b with
    | nil =>
      cases h
      exact hnewer.elim
    | cons header rest =>
      simp only [ofBytesWith, u8, Outcome.ok_bind] at h
      split at h
      · -- with a length every failure but that of the length is kept in the condition
        have hsize : Asks False sizeDecoder :=
          .bind (.number 4) fun n => .bind .remaining fun m => .check not_false (.pure _)
        cases hrun : sizeDecoder rest with
        | error e' =>
          rw [hrun] at h
          cases h
          exact (hsize.reason hrun hnewer).elim
        | ok s =>
          rw [hrun, Outcome.ok_bind] at h
          split at h <;> cases h
      · rename_i hflag
        exact ⟨header, rest, rfl, not_not.1 hflag, (exactly_eq_error hnewer).1 h⟩
  · rintro ⟨header, rest, rfl, hflag, h⟩
    simp only [ofBytesWith, u8, Outcome.ok_bind, if_neg (not_not.2 hflag)]
    exact (exactly_eq_error hnewer).2 h

/-! ## All places -/

/-- Where there is such a place the reader fails, and for this reason. -/
theorem NeedsNewer.fails {n : Nat} {site : Site} {b : Bytes} {e : CodecError}
    (h : NeedsNewer n site b e) : site.Fails n b e ∧ e.Newer := by
  induction h with
  | @unknown n levels v code rest hop =>
    have hrefused : Expr.opcodeDecoder v (code :: rest) = .error (.invalidFormat .opcode) :=
      (Expr.opcodeDecoder_eq_error.2 ⟨code, rest, rfl, .inl ⟨hop, rfl⟩⟩).1
    refine ⟨?_, trivial⟩
    rw [Site.Fails, Expr.decoderWithin_succ]
    exact bind_eq_error.2 (.inl hrefused)
  | @later n levels v code rest op hop hlt =>
    have hrefused : Expr.opcodeDecoder v (code :: rest) = .error (.unsupportedOpcode code) :=
      (Expr.opcodeDecoder_eq_error.2 ⟨code, rest, rfl, .inr ⟨op, hop, hlt, rfl⟩⟩).1
    refine ⟨?_, trivial⟩
    rw [Site.Fails, Expr.decoderWithin_succ]
    exact bind_eq_error.2 (.inl hrefused)
  | operand hop comes there ih =>
    refine ⟨?_, ih.2⟩
    rw [Site.Fails, Expr.decoderWithin_succ]
    exact bind_eq_error.2 (.inr ⟨_, _, hop, comes.fails ih.1⟩)
  | constant hop there ih =>
    refine ⟨?_, ih.2⟩
    rw [Site.Fails, Expr.decoderWithin_succ]
    exact bind_eq_error.2 (.inr ⟨_, _, hop, bind_eq_error.2 (.inl ih.1)⟩)
  | box comes there ih => exact ⟨comes.fails ih.1, ih.2⟩
  | script hamount hscript there ih =>
    refine ⟨bind_eq_error.2 (.inl ?_), ih.2⟩
    rw [Candidate.decoderWith_eq]
    refine bind_eq_error.2 (.inl ((Candidate.frontDecoder_eq_error ih.2).2 ?_))
    exact ⟨_, _, _, _, hamount, hscript, ih.1⟩
  | register hfront comes there ih =>
    refine ⟨bind_eq_error.2 (.inl ?_), ih.2⟩
    rw [Candidate.decoderWith_eq]
    exact bind_eq_error.2 (.inr ⟨_, _, hfront, bind_eq_error.2 (.inl (comes.fails ih.1))⟩)
  -- the boxes above are read part by part, and a part's failure is theirs
  | unsized h there ih =>
    exact ⟨(Condition.ofBytesWith_eq_error ih.2).2 ⟨_, _, rfl, h, ih.1⟩, ih.2⟩
  | version h hlt =>
    have hnewer : (CodecError.invalidFormat .scriptVersion).Newer := trivial
    exact ⟨(Condition.bodyDecoder_eq_error hnewer).2 (.inl ⟨h, hlt, rfl⟩), hnewer⟩
  | table current comes there ih =>
    have htable := comes.fails ih.1
    exact ⟨(Condition.bodyDecoder_eq_error ih.2).2 (.inr ⟨current, .inl htable⟩), ih.2⟩
  | root current htable there ih =>
    have hroot := (Condition.bodyDecoder_eq_error ih.2).2
      (.inr ⟨current, .inr ⟨_, _, htable, ih.1⟩⟩)
    exact ⟨hroot, ih.2⟩

/-- All failures to read as `site` that ask for a newer version have their place. -/
def Site.Explained (n : Nat) (site : Site) : Prop :=
  ∀ b e, site.Fails n b e → e.Newer → NeedsNewer n site b e

namespace Site.Explained

variable {n : Nat}

theorem value (hbox : Site.box.Explained n) : Site.value.Explained n := by
  intro b e hfails hnewer
  obtain ⟨i, hi, s, hs, hcomes⟩ := Value.relays_decoderWith.reason hfails hnewer
  obtain rfl := List.mem_singleton.1 hi
  exact .box hcomes (hbox s e hs hnewer)

theorem expression (hvalue : Site.value.Explained n) (v : UInt8) (levels : Nat) :
    (Site.expression v levels).Explained n := by
  induction levels using Expr.levels_induction with
  | tooDeep =>
    intro b e hfails hnewer
    cases hfails
    exact hnewer.elim
  | node levels hsub hbody =>
    intro b e hfails hnewer
    rw [Site.Fails, Expr.decoderWithin_succ] at hfails
    rcases bind_eq_error.1 hfails with hrefused | ⟨op, m, hop, hoperands⟩
    · obtain ⟨code, rest, rfl, ⟨hcode, rfl⟩ | ⟨op, hcode, hlt, rfl⟩⟩ :=
        Expr.opcodeDecoder_eq_error.1 ⟨hrefused, hnewer⟩
      · exact .unknown hcode
      · exact .later hcode hlt
    by_cases hconst : op = .const
    · subst hconst
      rcases bind_eq_error.1 hoperands with hconstant | ⟨_, _, -, hpure⟩
      · exact .constant hop (hvalue m e hconstant hnewer)
      · cases hpure
    -- anything else fails in an operand or in a body, which have fewer levels
    obtain ⟨i, hi, s, hs, hcomes⟩ := (Expr.relays_operandDecoder (I := [levels, levels - 1])
      (by simp) (by simp) hconst).reason hoperands hnewer
    have hthere : NeedsNewer n (.expression v i) s e := by
      simp only [List.mem_cons, List.not_mem_nil, or_false] at hi
      rcases hi with rfl | rfl
      · exact hsub s e hs hnewer
      · exact hbody s e hs hnewer
    exact .operand hop hcomes hthere

theorem body (hvalue : Site.value.Explained n) (header : UInt8) :
    (Site.body header).Explained n := by
  intro b e hfails hnewer
  have htable : Relays [n] fun d => Condition.constantsDecoder (d n) header :=
    .ite (.bind (.plain .count) fun k => .replicate (.part List.mem_cons_self) k)
      (.plain (.pure _))
  rcases (Condition.bodyDecoder_eq_error hnewer).1 hfails with
    ⟨hreserved, hlt, rfl⟩ | ⟨hcurrent, hfails | ⟨cs, m, hcs, hroot⟩⟩
  · exact .version hreserved hlt
  · obtain ⟨i, hi, s, hs, hcomes⟩ := htable.reason hfails hnewer
    obtain rfl := List.mem_singleton.1 hi
    exact .table hcurrent hcomes (hvalue s e hs hnewer)
  · exact .root hcurrent hcs (hvalue.expression _ _ m e hroot hnewer)

theorem condition (hvalue : Site.value.Explained n) : Site.condition.Explained n := by
  intro b e hfails hnewer
  obtain ⟨header, rest, rfl, hflag, hbody⟩ :=
    (Condition.ofBytesWith_eq_error hnewer).1 hfails
  exact .unsized hflag (hvalue.body header rest e hbody hnewer)

/-- A box has its places in the script and in the registers, where one box fewer may follow. -/
theorem box (n : Nat) : Site.box.Explained n := by
  induction n with
  | zero =>
    intro b e hfails hnewer
    cases hfails
    exact hnewer.elim
  | succ n ih =>
    intro b e hfails hnewer
    -- the octets behind the registers, where nothing of a newer version can stand
    have hrest (c : Candidate) : Asks False (do
        let tx ← Decoder.octets 32
        let index ← Decoder.u32
        if 0xffff < index then Decoder.malformed .outputIndex
        return (⟨c, tx, index.toUInt16⟩ : Box)) :=
      .bind (.octets 32) fun _ => .bind .u32 fun _ => .check not_false (.pure _)
    have hregisters (k : Nat) : Relays [n] fun d : Nat → Decoder Value =>
        Decoder.replicate k (d n) := .replicate (.part List.mem_cons_self) k
    rcases bind_eq_error.1 hfails with hcandidate | ⟨c, m, -, hbehind⟩
    · rw [Candidate.decoderWith_eq] at hcandidate
      rcases bind_eq_error.1 hcandidate with hfront | ⟨⟨c, k⟩, m, hfront, hthen⟩
      · obtain ⟨_, _, script, _, hamount, hscript, hcondition⟩ :=
          (Candidate.frontDecoder_eq_error hnewer).1 hfront
        exact .script hamount hscript (ih.value.condition script e hcondition hnewer)
      · rcases bind_eq_error.1 hthen with hvalues | ⟨_, _, -, hpure⟩
        · have hfails : Decoder.replicate k (Value.decoderWithin n) m = .error e := hvalues
          obtain ⟨i, hi, s, hs, hcomes⟩ := (hregisters k).reason hfails hnewer
          obtain rfl := List.mem_singleton.1 hi
          exact .register hfront hcomes (ih.value s e hs hnewer)
        · cases hpure
    · exact ((hrest c).reason hbehind hnewer).elim

end Site.Explained

/-- **The places account for the failures.**  To read octets as a value, a box, a condition or an
expression fails for want of a newer version exactly where the reader comes to an operation or a
header that calls for one. -/
theorem needsNewer_iff {n : Nat} {site : Site} {b : Bytes} {e : CodecError} :
    NeedsNewer n site b e ↔ site.Fails n b e ∧ e.Newer := by
  have hbox := Site.Explained.box n
  refine ⟨NeedsNewer.fails, fun ⟨hfails, hnewer⟩ => ?_⟩
  cases site with
  | value => exact hbox.value b e hfails hnewer
  | box => exact hbox b e hfails hnewer
  | condition => exact hbox.value.condition b e hfails hnewer
  | body header => exact hbox.value.body header b e hfails hnewer
  | expression v levels => exact hbox.value.expression v levels b e hfails hnewer

end

end Covenant

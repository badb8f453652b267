/-
  VERSIONS — a condition uses only operations that its script version provides.

  Whoever builds a condition has it written for a version that covers its expression; a reader
  refuses an operation that is newer than the version in the header, wherever in the expression it
  stands.  The version is the only thing that an evaluation looks at later on, so it has to hold of
  every node: operands, definitions, defaults and bodies of functions.

  1. **Decoding** — every node of an expression that was read passed `opcodeDecoder`
     (`Expr.ensures_decoder`).
  2. **Building** — the lowest version that covers an expression covers it (`Expr.requiredVersion`),
     and the header says so (`version_headerFor`).
  3. **`Condition.Built.provided`** — so for every condition that was built or read.
-/
import Covenant.Proofs.Codec.Faithful
import Covenant.Script.Condition

namespace Covenant

/-! ## What a decoder ensures -/

namespace Decoder

variable {α β : Type} {Q : α → Prop} {R : β → Prop}

/-- Whatever the decoder yields satisfies `Q`. -/
def Ensures (d : Decoder α) (Q : α → Prop) : Prop := ∀ b v r, d b = .ok (v, r) → Q v

namespace Ensures

theorem pure {a : α} (h : Q a) : Ensures (Pure.pure a) Q := by
  intro b v r hrun
  cases hrun
  exact h

theorem malformed (d : FormatDefect) : Ensures (Decoder.malformed d : Decoder α) Q := by
  intro b v r hrun
  cases hrun

theorem fail (e : CodecError) : Ensures (throw e : Decoder α) Q := by
  intro b v r hrun
  cases hrun

theorem bind {d : Decoder α} {f : α → Decoder β} (hd : Ensures d Q)
    (hf : ∀ a, Q a → Ensures (f a) R) : Ensures (d >>= f) R := by
  intro b v r hrun
  obtain ⟨a, rest, hfirst, hthen⟩ := bind_eq_ok.1 hrun
  exact hf a (hd b a rest hfirst) rest v r hthen

/-- A step of which only the continuation matters. -/
theorem andThen {d : Decoder α} {f : α → Decoder β} (hf : ∀ a, Ensures (f a) R) :
    Ensures (d >>= f) R :=
  bind (Q := fun _ => True) (fun _ _ _ _ => trivial) fun a _ => hf a

/-- A check in front of a decoder, which knows its outcome. -/
theorem check {c : Prop} [Decidable c] {x : Decoder PUnit} {y : Decoder α} (hy : Ensures y Q) :
    Ensures (if c then x >>= fun _ => y else y) Q := by
  split
  · exact andThen fun _ => hy
  · exact hy

theorem replicate {d : Decoder α} (hd : Ensures d Q) (n : Nat) :
    Ensures (d.replicate n) fun vs => ∀ v ∈ vs, Q v := by
  induction n with
  | zero => exact pure (by simp)
  | succ n ih =>
    exact bind hd fun v hv => bind ih fun vs hvs => pure (List.forall_mem_cons.2 ⟨hv, hvs⟩)

theorem exactly {d : Decoder α} (hd : Ensures d Q) {b : Bytes} {v : α} (h : d.exactly b = .ok v) :
    Q v :=
  hd b v [] (exactly_eq_ok.1 h)

end Ensures

end Decoder

/-! ## Expressions -/

/-- The version provides the operations of all nodes. -/
def Expr.Provided (version : UInt8) (e : Expr) : Prop := ∀ op ∈ e.opcodes, op.since ≤ version

namespace Expr

variable {version : UInt8}

instance (e : Expr) : Decidable (e.Provided version) :=
  inferInstanceAs (Decidable (∀ op ∈ e.opcodes, op.since ≤ version))

theorem forall_opcodesAll {es : List Expr} :
    (∀ op ∈ opcodesAll es, op.since ≤ version) ↔ ∀ e ∈ es, e.Provided version := by
  induction es with
  | nil => simp [opcodesAll]
  | cons e es ih => rw [opcodesAll, List.forall_mem_append, ih, List.forall_mem_cons, Provided]

theorem forall_opcodesDefs {ds : List (UInt32 × Expr)} :
    (∀ op ∈ opcodesDefs ds, op.since ≤ version) ↔ ∀ d ∈ ds, d.2.Provided version := by
  induction ds with
  | nil => simp [opcodesDefs]
  | cons d ds ih => rw [opcodesDefs, List.forall_mem_append, ih, List.forall_mem_cons, Provided]

/-! ## Decoding -/

open Decoder

theorem ensures_opcodeDecoder : Ensures (opcodeDecoder version) fun op => op.since ≤ version := by
  refine .andThen fun code => ?_
  split
  · exact .malformed _
  · split
    · exact .fail _
    · exact .pure (UInt8.not_lt.1 ‹_›)

theorem ensures_fieldDecoder (k : RecordKind) : Ensures k.fieldDecoder fun f => f.kind = k := by
  refine .andThen fun code => ?_
  cases k with
  | header | preHeader | stateTree =>
    dsimp only
    split
    · exact .malformed _
    · exact .pure rfl

section

variable {value : Decoder Value} {sub body : Decoder Expr} (hsub : Ensures sub (Provided version))
include hsub

theorem ensures_listDecoder : Ensures (listDecoder sub) fun es =>
    ∀ op ∈ opcodesAll es, op.since ≤ version :=
  .andThen fun n => fun b es r hrun => forall_opcodesAll.2 (hsub.replicate n b es r hrun)

theorem ensures_defDecoder : Ensures (defDecoder sub) fun d => d.2.Provided version :=
  .andThen fun _ => .bind hsub fun _ he => .pure he

/-- What follows an operation adds no newer one. -/
theorem ensures_operandDecoder (hbody : Ensures body (Provided version)) {op : Opcode}
    (hop : op.since ≤ version) : Ensures (operandDecoder value sub body op) (Provided version) := by
  -- the operation itself was checked against the version when its octet was read
  have leaf {e : Expr} (h : e.opcodes = [op]) : e.Provided version := by
    rw [Provided, h]
    exact List.forall_mem_singleton.2 hop
  have node {e : Expr} {ops : List Opcode} (h : e.opcodes = op :: ops)
      (hops : ∀ op ∈ ops, op.since ≤ version) : e.Provided version := by
    rw [Provided, h]
    exact List.forall_mem_cons.2 ⟨hop, hops⟩
  cases op with
  | const | placeholder | use => exact .andThen fun _ => .pure (leaf rfl)
  | getVar | deserialize => exact .andThen fun _ => .andThen fun _ => .pure (leaf rfl)
  | context => exact .pure (leaf rfl)
  | block =>
    exact .andThen fun n => .bind ((ensures_defDecoder hsub).replicate n) fun ds hds =>
      .bind hsub fun e he => .pure
        (node rfl (List.forall_mem_append.2 ⟨forall_opcodesDefs.2 hds, he⟩))
  | variadic => exact .bind (ensures_listDecoder hsub) fun es hes => .pure (node rfl hes)
  | collOf =>
    exact .andThen fun t => .bind (ensures_listDecoder hsub) fun es hes => .pure (node rfl hes)
  | unary => exact .bind hsub fun e he => .pure (node rfl he)
  | selectField => exact .bind hsub fun e he => .andThen fun _ => .pure (node rfl he)
  | register =>
    exact .bind hsub fun e he => .andThen fun _ => .check (.andThen fun _ => .pure (node rfl he))
  | record k =>
    refine .bind (ensures_fieldDecoder k) fun f hf => ?_
    subst hf
    exact .bind hsub fun e he => .pure (node rfl he)
  | binary =>
    exact .bind hsub fun a ha => .bind hsub fun b hb => .pure
      (node rfl (List.forall_mem_append.2 ⟨ha, hb⟩))
  | ternary =>
    exact .bind hsub fun a ha => .bind hsub fun b hb => .bind hsub fun c hc => .pure
      (node rfl (List.forall_mem_append.2 ⟨List.forall_mem_append.2 ⟨ha, hb⟩, hc⟩))
  | byIndex =>
    refine .bind hsub fun c hc => .bind hsub fun i hi => .andThen fun default => ?_
    have hops := List.forall_mem_append.2 ⟨hc, hi⟩
    split
    · exact .bind hsub fun d hd => .pure (node rfl (List.forall_mem_append.2 ⟨hops, hd⟩))
    · exact .pure (node rfl hops)
  | loop =>
    exact .bind hsub fun c hc => .andThen fun _ => .bind hbody fun b hb => .pure
      (node rfl (List.forall_mem_append.2 ⟨hc, hb⟩))
  | fold =>
    exact .bind hsub fun c hc => .bind hsub fun z hz => .andThen fun _ => .bind hbody fun b hb =>
      .pure (node rfl (List.forall_mem_append.2 ⟨List.forall_mem_append.2 ⟨hc, hz⟩, hb⟩))
  | dhTuple =>
    exact .bind hsub fun g hg => .bind hsub fun h hh => .bind hsub fun u hu =>
      .bind hsub fun v hv => .pure (node rfl (List.forall_mem_append.2
        ⟨List.forall_mem_append.2 ⟨List.forall_mem_append.2 ⟨hg, hh⟩, hu⟩, hv⟩))

theorem ensures_nodeDecoder (hbody : Ensures body (Provided version)) :
    Ensures (nodeDecoder value version sub body) (Provided version) :=
  .bind ensures_opcodeDecoder fun _ hop => ensures_operandDecoder hsub hbody hop

end

theorem ensures_decoderWithin (value : Decoder Value) (levels : Nat) :
    Ensures (decoderWithin value version levels) (Provided version) := by
  induction levels using levels_induction with
  | tooDeep => exact .malformed _
  | node levels hsub hbody =>
    rw [decoderWithin_succ]
    exact ensures_nodeDecoder hsub hbody

/-- **An expression that was read** uses only operations of its version. -/
theorem ensures_decoderWith (value : Decoder Value) :
    Ensures (decoderWith value version) (Provided version) :=
  ensures_decoderWithin value _

theorem provided_of_decoder [Suite] {b : Bytes} {e : Expr}
    (h : (Expr.decoder version).exactly b = .ok e) : e.Provided version := by
  have hrun := exactly_eq_ok.1 h
  rw [Expr.decoder] at hrun
  exact ensures_decoderWith _ b e [] hrun

/-! ## The lowest version -/

theorem max_octet_le {a b c : UInt8} : max a b ≤ c ↔ a ≤ c ∧ b ≤ c := by
  show (if a ≤ b then b else a) ≤ c ↔ _
  grind

/-- A bound on a running maximum is a bound on where it started and on every version on the way. -/
theorem foldl_max_le {ops : List Opcode} {v bound : UInt8} :
    ops.foldl (fun v op => max v op.since) v ≤ bound ↔
      v ≤ bound ∧ ∀ op ∈ ops, op.since ≤ bound := by
  induction ops generalizing v with
  | nil => simp
  | cons op ops ih => rw [List.foldl_cons, ih, max_octet_le, List.forall_mem_cons, and_assoc]

/-- **The lowest version** provides what is used, and is below every other that does. -/
theorem requiredVersion_le_iff {e : Expr} {bound : UInt8} :
    e.requiredVersion ≤ bound ↔ e.Provided bound := by
  simp [requiredVersion, foldl_max_le, Provided]

/-- Every operation is provided by the newest version. -/
theorem provided_maxScriptVersion (e : Expr) : e.Provided maxScriptVersion := by
  have hall : ∀ op ∈ Opcode.all, op.since ≤ maxScriptVersion := by decide
  exact fun op _ => hall op (List.mem_of_find?_eq_some (Opcode.ofCode?_code op))

/-- A version that has no newer operation in its way provides all. -/
theorem provided_of_firstNewer? {e : Expr} (h : e.firstNewer? version = none) :
    e.Provided version := fun op hop =>
  UInt8.not_lt.1 fun hlt => List.find?_eq_none.1 h op hop (decide_eq_true hlt)

end Expr

/-! ## Conditions -/

namespace Condition

/-- A header spells its version, up to the largest that fits. -/
theorem version_headerFor {v : UInt8} (hv : v ≤ versionMask) (constants : Bool) :
    headerFor v constants &&& versionMask = v := by
  have hall : ∀ i : Fin 256, ∀ constants, UInt8.ofFin i ≤ versionMask →
      headerFor (UInt8.ofFin i) constants &&& versionMask = UInt8.ofFin i := by
    decide +kernel
  exact hall v.toFin constants hv

/-- Every way to come by a condition. -/
inductive Built [Suite] : Condition → Prop
  | new (root : Expr) : Built (.new root)
  | withConstants (constants : List Value) (root : Expr) : Built (.withConstants constants root)
  | versioned {version : UInt8} {constants : List Value} {root : Expr} {c : Condition}
      (h : Condition.versioned version constants root = .ok c) : Built c
  | ofProposition (p : Proposition) : Built (.ofProposition p)
  | ofBytes {b : Bytes} {c : Condition} (h : Condition.ofBytes b = .ok c) : Built c

/-- The condition's version provides the operations of its expression. -/
def Provided (c : Condition) : Prop := ∀ e ∈ c.root?, e.Provided c.version

theorem provided_parsed {version : UInt8} (hv : version ≤ maxScriptVersion) (flag : Bool)
    (constants : List Value) {root : Expr} (h : root.Provided version) :
    (Condition.parsed (headerFor version flag) constants root).Provided := by
  have hmask : version ≤ versionMask := UInt8.le_trans hv (by decide)
  rintro _ ⟨⟩
  rwa [Condition.version, Condition.header, version_headerFor hmask]

theorem provided_new (constants : List Value) (flag : Bool) (root : Expr) :
    (Condition.parsed (headerFor root.requiredVersion flag) constants root).Provided :=
  provided_parsed (Expr.requiredVersion_le_iff.2 root.provided_maxScriptVersion) flag constants
    (Expr.requiredVersion_le_iff.1 (UInt8.le_refl _))

/-- A condition at a given version is what it was asked for, and the version provides it. -/
theorem of_versioned {version : UInt8} {constants : List Value} {root : Expr} {c : Condition}
    (h : Condition.versioned version constants root = .ok c) :
    version ≤ maxScriptVersion ∧ root.Provided version ∧
      c = .parsed (headerFor version !constants.isEmpty) constants root := by
  unfold Condition.versioned at h
  split at h
  · cases h
  · rename_i hv
    split at h
    · cases h
    · rename_i hnewer
      cases h
      exact ⟨UInt8.not_lt.1 hv, Expr.provided_of_firstNewer? hnewer, rfl⟩

theorem provided_versioned {version : UInt8} {constants : List Value} {root : Expr} {c : Condition}
    (h : Condition.versioned version constants root = .ok c) : c.Provided := by
  obtain ⟨hv, hprovided, rfl⟩ := of_versioned h
  exact provided_parsed hv _ _ hprovided

open Decoder

theorem ensures_bodyDecoder (value : Decoder Value) (header : UInt8) :
    Ensures (bodyDecoder value header) Provided :=
  .check (.check (.check (.andThen fun constants =>
    .bind (Expr.ensures_decoderWith value) fun root hroot => .pure (by rintro _ ⟨⟩; exact hroot))))

/-- A condition was read from the end of its octets, as a body, or it was kept. -/
theorem read_or_kept {value : Decoder Value} {b : Bytes} {c : Condition}
    (h : ofBytesWith value b = .ok c) :
    (∃ header body, body <:+ b ∧ (bodyDecoder value header).exactly body = .ok c) ∨
      ∃ reason, c = .unparsed b reason := by
  cases b with
  | nil => simp only [ofBytesWith, u8, Outcome.error_bind, reduceCtorEq] at h
  | cons header rest =>
    simp only [ofBytesWith, u8, Outcome.ok_bind] at h
    split at h
    · obtain ⟨⟨u, body⟩, hsize, hrun⟩ := Outcome.bind_eq_ok.1 h
      obtain ⟨n, rest', hcount, hrest⟩ := bind_eq_ok.1 hsize
      obtain ⟨octets, rfl, -, -⟩ := Faithful.plain (fun _ => faithful_size) hcount
      -- the length is compared with what is left, and nothing of it is taken
      obtain rfl : body = rest' := by
        rw [bind_apply] at hrest
        simp only [remaining, Outcome.ok_bind] at hrest
        split at hrest <;> cases hrest
        rfl
      split at hrun
      · rename_i c' hc
        cases hrun
        exact .inl ⟨header, body, ⟨header :: octets, rfl⟩, hc⟩
      · cases hrun
        exact .inr ⟨_, rfl⟩
    · exact .inl ⟨header, rest, List.suffix_cons header rest, h⟩

/-- What the readers of bodies ensure, and what holds of every condition that was kept unread, holds
of every condition that was read. -/
theorem ensures_ofBytesWith {value : Decoder Value} {Q : Condition → Prop}
    (hbody : ∀ header, Ensures (bodyDecoder value header) Q)
    (hunparsed : ∀ octets reason, Q (.unparsed octets reason)) {b : Bytes} {c : Condition}
    (h : ofBytesWith value b = .ok c) : Q c := by
  rcases read_or_kept h with ⟨header, body, -, hread⟩ | ⟨reason, rfl⟩
  · exact (hbody header).exactly hread
  · exact hunparsed b reason

/-- One that was kept unread has no expression at all. -/
theorem provided_ofBytesWith {value : Decoder Value} {b : Bytes} {c : Condition}
    (h : ofBytesWith value b = .ok c) : c.Provided :=
  ensures_ofBytesWith (ensures_bodyDecoder value) (fun _ _ => by rintro _ ⟨⟩) h

/-- **However a condition was come by**, its version provides the operations of its expression. -/
theorem Built.provided [Suite] {c : Condition} (h : c.Built) : c.Provided := by
  cases h with
  | new root => exact provided_new [] false root
  | withConstants constants root => exact provided_new constants true root
  | versioned h => exact provided_versioned h
  | ofProposition p => exact provided_new [] false _
  | ofBytes h => exact provided_ofBytesWith h

end Condition

end Covenant

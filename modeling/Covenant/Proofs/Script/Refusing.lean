/-
  REFUSING — what one script version reads, another reads as well or refuses for its operations.

  The version that an expression is read at makes a difference in one place only: an octet that
  stands for an operation that the version does not provide is refused.  So two readers that differ
  in their versions go through the same octets side by side, until one of them stops.  Where the
  encoding, the list of operations and the reader visit the parts of a node in the same order, the
  operation at which it stops is the first in that list — the same that whoever builds a condition
  for that version is told of.

  1. **`Decoder.Matches`** — the second decoder yields what the first yields, or stops; sequences and
     repetitions keep the order of what they stop at.
  2. **Expressions** — one case for each kind of operation (`Expr.matches_operandDecoder`).
  3. **`Expr.versions_agree`** — what is encodable is read at the newest version, and so read or
     refused at each other one.
-/
import Covenant.Proofs.Script.Survival

namespace Covenant

namespace Decoder

variable {α β : Type} {R : α → Option CodecError → Prop} {R' : β → Option CodecError → Prop}

/-! ## Two decoders side by side -/

/-- What a decoder makes of an input on which another one yields `x` and leaves `rest`: the same,
unless it refuses it. -/
def answer (refusal : Option CodecError) (x : α) (rest : Bytes) : Except CodecError (α × Bytes) :=
  match refusal with
  | none => .ok (x, rest)
  | some e => .error e

/-- On every input from which `d` yields a value, `d'` yields the same or refuses the input; the
relation `R` says which values are refused and why. -/
def Matches (d d' : Decoder α) (R : α → Option CodecError → Prop) : Prop :=
  ∀ b x rest, d b = .ok (x, rest) → ∃ refusal, R x refusal ∧ d' b = answer refusal x rest

namespace Matches

theorem pure {a : α} (h : R a none) : Matches (Pure.pure a) (Pure.pure a) R := by
  intro b x rest hrun
  cases hrun
  exact ⟨none, h, rfl⟩

/-- Nothing is asked of the second decoder when the first yields nothing. -/
theorem malformed {d' : Decoder α} (defect : FormatDefect) :
    Matches (Decoder.malformed defect) d' R := by
  intro b x rest hrun
  cases hrun

/-- What the first step refuses comes before what the second does. -/
theorem bind {d d' : Decoder α} {f f' : α → Decoder β} (hd : Matches d d' R)
    (hf : ∀ a s, R a s → Matches (f a) (f' a) fun x t => R' x (s.or t)) :
    Matches (d >>= f) (d' >>= f') R' := by
  intro b x rest hrun
  obtain ⟨a, middle, hfirst, hthen⟩ := bind_eq_ok.1 hrun
  obtain ⟨s, hs, hfirst'⟩ := hd b a middle hfirst
  obtain ⟨t, ht, hthen'⟩ := hf a s hs middle x rest hthen
  refine ⟨s.or t, ht, ?_⟩
  rw [bind_apply, hfirst']
  cases s with
  | none => exact hthen'
  | some e => rfl

/-- A step that both decoders share is never refused, and what it ensures both may use. -/
theorem after {d : Decoder α} {f f' : α → Decoder β} {Q : α → Prop} (hd : Ensures d Q)
    (hf : ∀ a, Q a → Matches (f a) (f' a) R') : Matches (d >>= f) (d >>= f') R' := by
  intro b x rest hrun
  obtain ⟨a, middle, hfirst, hthen⟩ := bind_eq_ok.1 hrun
  obtain ⟨t, ht, hthen'⟩ := hf a (hd b a middle hfirst) middle x rest hthen
  refine ⟨t, ht, ?_⟩
  rw [bind_apply, hfirst]
  exact hthen'

theorem andThen {d : Decoder α} {f f' : α → Decoder β} (hf : ∀ a, Matches (f a) (f' a) R') :
    Matches (d >>= f) (d >>= f') R' :=
  after (Q := fun _ => True) (fun _ _ _ _ => trivial) fun a _ => hf a

/-- A check that both decoders share. -/
theorem check {c : Prop} [Decidable c] {x : Decoder PUnit} {d d' : Decoder α}
    (h : Matches d d' R) :
    Matches (if c then x >>= fun _ => d else d) (if c then x >>= fun _ => d' else d') R := by
  split
  · exact andThen fun _ => h
  · exact h

/-- Of a repetition the first item that is refused counts. -/
theorem replicate {d d' : Decoder α} {why : α → Option CodecError}
    (h : Matches d d' fun x s => s = why x) (n : Nat) :
    Matches (d.replicate n) (d'.replicate n) fun xs s => s = xs.findSome? why := by
  induction n with
  | zero => exact pure rfl
  | succ n ih =>
    refine h.bind fun x s hs => ih.bind fun xs t ht => pure ?_
    subst hs ht
    rw [List.findSome?_cons, Option.or_none]
    cases why x <;> rfl

end Matches

end Decoder

/-! ## Operations -/

/-- Why a script version refuses some operations: because of the first that it does not provide. -/
def Opcode.refusal? (version : UInt8) (ops : List Opcode) : Option CodecError :=
  (ops.find? fun op => version < op.since).map fun op => .unsupportedOpcode op.code

namespace Expr

open Decoder Opcode

variable {version : UInt8}

theorem refusal?_append (ops ops' : List Opcode) :
    refusal? version (ops ++ ops') = (refusal? version ops).or (refusal? version ops') := by
  rw [refusal?, List.find?_append, Option.map_or, refusal?, refusal?]

theorem refusal?_opcodesAll (es : List Expr) :
    refusal? version (opcodesAll es) = es.findSome? fun e => refusal? version e.opcodes := by
  induction es with
  | nil => rfl
  | cons e es ih =>
    rw [opcodesAll, refusal?_append, ih, List.findSome?_cons]
    cases refusal? version e.opcodes <;> rfl

theorem refusal?_opcodesDefs (ds : List (UInt32 × Expr)) :
    refusal? version (opcodesDefs ds) = ds.findSome? fun d => refusal? version d.2.opcodes := by
  induction ds with
  | nil => rfl
  | cons d ds ih =>
    rw [opcodesDefs, refusal?_append, ih, List.findSome?_cons]
    cases refusal? version d.2.opcodes <;> rfl

/-! ## Expressions -/

/-- The second reader yields the expressions of the first that its version provides, and refuses
the others because of their first newer operation. -/
abbrev Reread (version : UInt8) (d d' : Decoder Expr) : Prop :=
  Matches d d' fun e s => s = refusal? version e.opcodes

theorem matches_opcodeDecoder (newer : UInt8) :
    Matches (opcodeDecoder newer) (opcodeDecoder version) fun op s =>
      s = refusal? version [op] := by
  refine .andThen fun code => ?_
  split
  · exact .malformed _
  · rename_i op _
    intro b x rest hrun
    split at hrun
    · cases hrun
    · cases hrun
      refine ⟨_, rfl, ?_⟩
      by_cases hlt : version < op.since <;> simp [refusal?, hlt, answer] <;> rfl

section

variable {value : Decoder Value} {sub sub' body body' : Decoder Expr}
  (hsub : Reread version sub sub')

include hsub

theorem matches_listDecoder : Matches (listDecoder sub) (listDecoder sub') fun es s =>
    s = refusal? version (opcodesAll es) := by
  refine .andThen fun n => ?_
  simpa only [refusal?_opcodesAll] using Matches.replicate hsub n

theorem matches_defDecoder : Matches (defDecoder sub) (defDecoder sub') fun d s =>
    s = refusal? version d.2.opcodes := by
  refine .andThen fun id => .bind hsub fun e s hs => .pure ?_
  rw [Option.or_none, hs]

/-- **Behind an operation** the parts of the node are read in the order in which their operations
are listed: one case for each kind. -/
theorem matches_operandDecoder (hbody : Reread version body body') (op : Opcode) :
    Matches (operandDecoder value sub body op) (operandDecoder value sub' body' op) fun e s =>
      (refusal? version [op]).or s = refusal? version e.opcodes := by
  -- the opcode itself comes first, so its refusal goes before those of the subtrees
  have node {e : Expr} {ops : List Opcode} {s : Option CodecError} (h : e.opcodes = op :: ops)
      (hs : s = refusal? version ops) : (refusal? version [op]).or s = refusal? version e.opcodes := by
    rw [h, hs, ← refusal?_append, List.singleton_append]
  cases op with
  | const | placeholder | use => exact .andThen fun _ => .pure (node rfl rfl)
  | getVar | deserialize => exact .andThen fun _ => .andThen fun _ => .pure (node rfl rfl)
  | context => exact .pure (node rfl rfl)
  | block =>
    refine .andThen fun n => .bind ((matches_defDecoder hsub).replicate n) fun ds s hs =>
      .bind hsub fun e t ht => .pure (node rfl ?_)
    -- the definitions are read before the expression, and listed before it
    rw [refusal?_append, refusal?_opcodesDefs, hs, ht, Option.or_none]
  | variadic =>
    refine .bind (matches_listDecoder hsub) fun es s hs => .pure (node rfl ?_)
    rw [hs, Option.or_none]
  | collOf =>
    refine .andThen fun t => .bind (matches_listDecoder hsub) fun es s hs => .pure (node rfl ?_)
    rw [hs, Option.or_none]
  | unary =>
    refine .bind hsub fun e s hs => .pure (node rfl ?_)
    rw [hs, Option.or_none]
  | selectField =>
    refine .bind hsub fun e s hs => .andThen fun i => .pure (node rfl ?_)
    rw [hs, Option.or_none]
  | register =>
    refine .bind hsub fun e s hs => .andThen fun i => .check (.andThen fun t => .pure (node rfl ?_))
    rw [hs, Option.or_none]
  | record k =>
    refine .after (ensures_fieldDecoder k) fun f hf => ?_
    subst hf
    refine .bind hsub fun e s hs => .pure (node rfl ?_)
    rw [hs, Option.or_none]
  | binary =>
    refine .bind hsub fun a s hs => .bind hsub fun b t ht => .pure (node rfl ?_)
    rw [refusal?_append, hs, ht, Option.or_none]
  | ternary =>
    refine .bind hsub fun a s hs => .bind hsub fun b t ht => .bind hsub fun c u hu =>
      .pure (node rfl ?_)
    rw [refusal?_append, refusal?_append, hs, ht, hu, Option.or_none, Option.or_assoc]
  | byIndex =>
    refine .bind hsub fun c s hs => .bind hsub fun i t ht => .andThen fun default => ?_
    split
    · -- with a default there is a third subtree
      refine .bind hsub fun d u hu => .pure (node rfl ?_)
      rw [refusal?_append, refusal?_append, hs, ht, hu, Option.or_none, Option.or_assoc]
    · refine .pure (node rfl ?_)
      rw [refusal?_append, hs, ht, Option.or_none]
  | loop =>
    refine .bind hsub fun c s hs => .andThen fun _ => .bind hbody fun b t ht => .pure (node rfl ?_)
    rw [refusal?_append, hs, ht, Option.or_none]
  | fold =>
    refine .bind hsub fun c s hs => .bind hsub fun z t ht => .andThen fun _ =>
      .bind hbody fun b u hu => .pure (node rfl ?_)
    rw [refusal?_append, refusal?_append, hs, ht, hu, Option.or_none, Option.or_assoc]
  | dhTuple =>
    refine .bind hsub fun g s hs => .bind hsub fun h t ht => .bind hsub fun u r hr =>
      .bind hsub fun v q hq => .pure (node rfl ?_)
    simp only [refusal?_append, hs, ht, hr, hq, Option.or_none, Option.or_assoc]

theorem reread_nodeDecoder (newer : UInt8) (hbody : Reread version body body') :
    Reread version (nodeDecoder value newer sub body) (nodeDecoder value version sub' body') := by
  refine .bind (matches_opcodeDecoder newer) fun op s hs => ?_
  intro b e rest hrun
  obtain ⟨t, ht, hrun'⟩ := matches_operandDecoder hsub hbody op b e rest hrun
  exact ⟨t, hs ▸ ht, hrun'⟩

end

theorem reread_decoderWithin (value : Decoder Value) (newer : UInt8) (levels : Nat) :
    Reread version (decoderWithin value newer levels) (decoderWithin value version levels) := by
  induction levels using levels_induction with
  | tooDeep => exact .malformed _
  | node levels hsub hbody =>
    rw [decoderWithin_succ, decoderWithin_succ]
    exact reread_nodeDecoder hsub newer hbody

section

variable [Suite]

/-- **What one version reads**, any other reads to the same expression, or it refuses it because of
the first operation that it does not provide. -/
theorem decoder_eq_answer {newer : UInt8} {b rest : Bytes} {e : Expr}
    (h : Expr.decoder newer b = .ok (e, rest)) :
    Expr.decoder version b = answer (refusal? version e.opcodes) e rest := by
  have hreread : Reread version (decoderWith (Value.decoderWithin (b.length + 1)) newer)
      (decoderWith (Value.decoderWithin (b.length + 1)) version) :=
    reread_decoderWithin _ newer (maxExprDepth + 1)
  obtain ⟨s, rfl, hrun⟩ := hreread b e rest h
  exact hrun

/-! ## Encodable expressions -/

omit [Suite] in
/-- The first newer operation, with what comes before it. -/
theorem exists_first_newer {e : Expr} (h : ¬e.requiredVersion ≤ version) :
    ∃ before op after, e.opcodes = before ++ op :: after ∧ (∀ o ∈ before, o.since ≤ version) ∧
      version < op.since ∧ e.firstNewer? version = some op := by
  cases hfirst : e.firstNewer? version with
  | none => exact absurd (requiredVersion_le_iff.2 (provided_of_firstNewer? hfirst)) h
  | some op =>
    obtain ⟨hlt, before, after, hops, hbefore⟩ := List.find?_eq_some_iff_append.1 hfirst
    refine ⟨before, op, after, hops, fun o ho => ?_, of_decide_eq_true hlt, rfl⟩
    simpa using hbefore o ho

/-- **Encoder, reader and builder agree on versions.**  An encodable expression is read back at
exactly the versions that provide all its operations, and these are the versions that a condition
over it can be built for.  At any other version the reader and the builder name the same operation:
the first newer one, in the order of `opcodes`. -/
theorem versions_agree {e : Expr} (he : e.Encodable) (version : UInt8)
    (hversion : version ≤ maxScriptVersion) (constants : List Value) :
    (∀ rest, Expr.decoder version (e.toBytes ++ rest) = .ok (e, rest) ↔
      e.requiredVersion ≤ version) ∧
    ((∃ c, Condition.versioned version constants e = .ok c) ↔ e.requiredVersion ≤ version) ∧
    (¬e.requiredVersion ≤ version → ∃ before op after,
      e.opcodes = before ++ op :: after ∧ (∀ o ∈ before, o.since ≤ version) ∧ version < op.since ∧
      (∀ rest, Expr.decoder version (e.toBytes ++ rest) = .error (.unsupportedOpcode op.code)) ∧
      Condition.versioned version constants e = .error (.unsupportedOpcode op.code)) := by
  have hnewest : e.requiredVersion ≤ maxScriptVersion :=
    requiredVersion_le_iff.2 e.provided_maxScriptVersion
  have hsupported : ¬maxScriptVersion < version := UInt8.not_lt.2 hversion
  -- both sides look for the first opcode that is newer, in the order of visits
  have hrefused (h : ¬e.requiredVersion ≤ version) : ∃ before op after,
      e.opcodes = before ++ op :: after ∧ (∀ o ∈ before, o.since ≤ version) ∧ version < op.since ∧
      (∀ rest, Expr.decoder version (e.toBytes ++ rest) = .error (.unsupportedOpcode op.code)) ∧
      Condition.versioned version constants e = .error (.unsupportedOpcode op.code) := by
    obtain ⟨before, op, after, hops, hbefore, hlt, hfirst⟩ := exists_first_newer h
    have hsome : refusal? version e.opcodes = some (.unsupportedOpcode op.code) :=
      congrArg (Option.map _) hfirst
    refine ⟨before, op, after, hops, hbefore, hlt, fun rest => ?_, ?_⟩
    · rw [decoder_eq_answer (he.reads hnewest rest), hsome]
      rfl
    · rw [Condition.versioned, if_neg hsupported, hfirst]
  refine ⟨fun rest => ⟨?_, fun h => he.reads h rest⟩, ⟨?_, fun h => ?_⟩, hrefused⟩
  · intro hread
    by_contra h
    obtain ⟨-, op, -, -, -, -, hfails, -⟩ := hrefused h
    rw [hfails rest] at hread
    cases hread
  · rintro ⟨c, hc⟩
    by_contra h
    obtain ⟨-, op, -, -, -, -, -, hfails⟩ := hrefused h
    rw [hfails] at hc
    cases hc
  · have hnone : e.firstNewer? version = none :=
      List.find?_eq_none.2 fun op hop => by
        simpa using requiredVersion_le_iff.1 h op hop
    exact ⟨_, by rw [Condition.versioned, if_neg hsupported, hnone]⟩

end

section

attribute [local instance] Suite.residues

/-- `anyRichInput` filters the inputs: version one provides that, and version zero refuses it. -/
theorem versions_agree_anyRichInput :
    anyRichInput.Encodable ∧ anyRichInput.requiredVersion = 1 ∧
    Expr.decoder 1 (anyRichInput.toBytes ++ [7]) = .ok (anyRichInput, [7]) ∧
    Expr.decoder 0 (anyRichInput.toBytes ++ [7]) =
      .error (.unsupportedOpcode (Opcode.loop .filter).code) ∧
    Condition.versioned 0 [.long 5] anyRichInput =
      .error (.unsupportedOpcode (Opcode.loop .filter).code) := by
  have hbuilder : Condition.versioned 0 [.long 5] anyRichInput =
      .error (.unsupportedOpcode (Opcode.loop .filter).code) := rfl
  obtain ⟨hread, -, -⟩ :=
    versions_agree encodable_anyRichInput 1 (by decide) [.long 5]
  obtain ⟨-, -, hrefused⟩ :=
    versions_agree encodable_anyRichInput 0 (by decide) [.long 5]
  obtain ⟨-, op, -, -, -, -, hfails, hsame⟩ := hrefused (by decide)
  -- the operation is known from the builder
  have hop : op.code = (Opcode.loop .filter).code := by
    rw [hbuilder] at hsame
    exact (CodecError.unsupportedOpcode.inj (Except.error.inj hsame)).symm
  refine ⟨encodable_anyRichInput, by decide, (hread [7]).2 (by decide), ?_, hbuilder⟩
  rw [hfails [7], hop]

end

end Expr

end Covenant

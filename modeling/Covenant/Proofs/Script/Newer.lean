/-
  NEWER — which failures to read ask for a newer version of the language.

  Octets may be unreadable because they were written for a later version: a header announces a
  version that is not known, or an octet stands for no operation, or for one that the version does
  not provide.  All other failures are malformations that no later version would accept.

  1. **`CodecError.Newer`** — the failures of the first kind.
  2. **`Decoder.Asks newer d`** — `d` leaves the end of its input, and asks for a newer version only
     if `newer` holds; results, checks, sequences and repetitions keep this.
  3. **Readers** — types, numbers, propositions and records never ask for a newer version, and values
     only if the boxes among them do.
-/
import Covenant.Proofs.Codec.Faithful
import Covenant.Script.Condition

namespace Covenant

/-- The failure is one that octets of a newer version have. -/
def CodecError.Newer : CodecError → Prop
  | .invalidFormat .scriptVersion | .invalidFormat .opcode | .unsupportedOpcode _ => True
  | _ => False

instance : DecidablePred CodecError.Newer
  | .invalidFormat d => by unfold CodecError.Newer; cases d <;> infer_instance
  | .unsupportedOpcode _ => .isTrue trivial
  | .unexpectedEnd | .trailingBytes | .invalidPoint | .invalidScalar => .isFalse not_false

namespace Decoder

variable {α β : Type} {newer : Prop}

/-- What the decoder leaves is the end of its input; and it fails for want of a newer version only if
`newer` holds. -/
structure Asks (newer : Prop) (d : Decoder α) : Prop where
  suffix : ∀ {b a r}, d b = .ok (a, r) → r <:+ b
  reason : ∀ {b e}, d b = .error e → e.Newer → newer

namespace Asks

/-! ## Steps -/

theorem pure (a : α) : Asks newer (Pure.pure a) where
  suffix hrun := by
    cases hrun
    exact List.suffix_refl _
  reason hrun := by cases hrun

theorem fail {e : CodecError} (he : ¬e.Newer) : Asks newer (throw e : Decoder α) where
  suffix hrun := by cases hrun
  reason hrun hnewer := by
    cases hrun
    exact absurd hnewer he

theorem malformed {d : FormatDefect} (hd : ¬(CodecError.invalidFormat d).Newer) :
    Asks newer (Decoder.malformed d : Decoder α) :=
  fail hd

theorem bind {x : Decoder α} {f : α → Decoder β} (hx : Asks newer x)
    (hf : ∀ a, Asks newer (f a)) : Asks newer (x >>= f) where
  suffix hrun := by
    obtain ⟨a, m, hfirst, hthen⟩ := bind_eq_ok.1 hrun
    exact ((hf a).suffix hthen).trans (hx.suffix hfirst)
  reason hrun hnewer := by
    rcases bind_eq_error.1 hrun with hfirst | ⟨a, m, -, hthen⟩
    · exact hx.reason hfirst hnewer
    · exact (hf a).reason hthen hnewer

theorem check {c : Prop} [Decidable c] {d : FormatDefect} {y : Decoder α}
    (hd : ¬(CodecError.invalidFormat d).Newer) (hy : Asks newer y) :
    Asks newer (if c then Decoder.malformed d >>= fun _ : PUnit => y else y) := by
  split
  · exact bind (malformed hd) fun _ => hy
  · exact hy

theorem ite {c : Prop} [Decidable c] {x y : Decoder α} (hx : Asks newer x) (hy : Asks newer y) :
    Asks newer (if c then x else y) := by
  split
  · exact hx
  · exact hy

theorem replicate {d : Decoder α} (hd : Asks newer d) (n : Nat) : Asks newer (d.replicate n) := by
  induction n with
  | zero => exact pure _
  | succ n ih => exact bind hd fun _ => bind ih fun _ => pure _

/-! ## Items -/

theorem u8 : Asks newer Decoder.u8 where
  suffix {b a r} hrun := by
    cases b with
    | nil => cases hrun
    | cons x b =>
      cases hrun
      exact List.suffix_cons _ _
  reason {b e} hrun hnewer := by
    cases b with
    | nil =>
      cases hrun
      exact hnewer.elim
    | cons x b => cases hrun

theorem octets (n : Nat) : Asks newer (Decoder.octets n) where
  suffix hrun := by
    simp only [Decoder.octets] at hrun
    split at hrun
    · cases hrun
    · rename_i hsplit
      cases hrun
      exact length_splitOctets hsplit ▸ List.suffix_append _ _
  reason hrun hnewer := by
    simp only [Decoder.octets] at hrun
    split at hrun <;> cases hrun
    exact hnewer.elim

theorem number (n : Nat) : Asks newer (Decoder.number n) := bind (octets n) fun _ => pure _

theorem u16 : Asks newer Decoder.u16 := bind (number 2) fun _ => pure _

theorem u32 : Asks newer Decoder.u32 := bind (number 4) fun _ => pure _

theorem u64 : Asks newer Decoder.u64 := bind (number 8) fun _ => pure _

theorem remaining : Asks newer Decoder.remaining where
  suffix hrun := by
    cases hrun
    exact List.suffix_refl _
  reason hrun := by cases hrun

theorem count : Asks newer Decoder.count :=
  bind (number 4) fun n => bind remaining fun m => by
    split
    · exact bind (fail not_false) fun _ => pure _
    · exact pure _

theorem take (n : Nat) : Asks newer (Decoder.take n) where
  suffix hrun := by
    simp only [Decoder.take] at hrun
    split at hrun <;> cases hrun
    exact List.drop_suffix _ _
  reason hrun hnewer := by
    simp only [Decoder.take] at hrun
    split at hrun <;> cases hrun
    exact hnewer.elim

theorem string : Asks newer Decoder.string := bind (number 4) fun _ => take _

theorem point [Suite] : Asks newer Decoder.point :=
  bind (octets 32) fun b => by
    split
    · exact bind (fail not_false) fun _ => pure _
    · exact pure _

/-- What is made of something else takes no octets. -/
theorem lift {x : Except CodecError α} (h : ∀ e, x = .error e → e.Newer → newer) :
    Asks newer (Decoder.lift x) where
  suffix hrun := by
    obtain ⟨a, -, ha⟩ := Outcome.map_eq_ok.1 hrun
    cases ha
    exact List.suffix_refl _
  reason {b e} hrun hnewer := by
    cases x with
    | ok a => cases hrun
    | error e' =>
      cases hrun
      exact h e rfl hnewer

end Asks

/-- Octets that are left over do not ask for a newer version. -/
theorem exactly_eq_error {d : Decoder α} {b : Bytes} {e : CodecError} (hnewer : e.Newer) :
    d.exactly b = .error e ↔ d b = .error e := by
  have hleft : CodecError.trailingBytes ≠ e := by
    rintro rfl
    exact hnewer
  unfold exactly
  split <;> simp [*]

end Decoder

open Decoder

variable {newer : Prop}

/-! ## Readers without failures of this kind -/

theorem asks_flagDecoder {d : FormatDefect} (hd : ¬(CodecError.invalidFormat d).Newer) :
    Asks newer (flagDecoder d) := by
  refine .bind .u8 fun x => ?_
  split
  · exact .pure _
  · exact .pure _
  · exact .malformed hd

theorem BigInt.asks_decoder : Asks newer BigInt.decoder := .bind (.octets 32) fun _ => .pure _

theorem StateTree.asks_decoder : Asks newer StateTree.decoder := by
  have hlength : Asks newer optionalLength := by
    refine .bind .u8 fun x => ?_
    split
    · exact .pure _
    · exact .bind .u32 fun _ => .pure _
    · exact .malformed not_false
  exact .bind (.octets 33) fun _ => .bind .u8 fun _ => .check not_false (.bind .u32 fun _ =>
    .bind hlength fun _ => .pure _)

theorem ValueType.asks_decoder : Asks newer ValueType.decoder := by
  have hlevels (levels : Nat) : Asks newer (decoderWithin levels) := by
    induction levels with
    | zero => exact .malformed not_false
    | succ levels ih =>
      refine .bind .u8 fun c => ?_
      split
      · exact .bind ih fun _ => .pure _
      · exact .bind ih fun _ => .pure _
      · exact .bind (.number 4) fun n => .check not_false (.check not_false
          (.bind (ih.replicate n) fun _ => .pure _))
      · split
        · exact .malformed not_false
        · exact .pure _
  exact hlevels _

theorem Signature.asks_decoder : Asks newer Signature.decoder := by
  have harg : Asks newer argDecoder :=
    .bind .u32 fun _ => .bind ValueType.asks_decoder fun _ => .pure _
  exact .bind .count fun n => .bind (harg.replicate n) fun _ =>
    .bind ValueType.asks_decoder fun _ => .pure _

theorem RecordKind.asks_fieldDecoder (k : RecordKind) : Asks newer k.fieldDecoder := by
  refine .bind .u8 fun c => ?_
  cases k with
  | header | preHeader | stateTree =>
    dsimp only
    split
    · exact .malformed not_false
    · exact .pure _

theorem Token.asks_decoder : Asks newer Token.decoder :=
  .bind (.octets 32) fun _ => .bind .u64 fun _ => .pure _

section

variable [Suite]

theorem PreHeader.asks_decoder : Asks newer PreHeader.decoder :=
  .bind .u8 fun _ => .bind (.octets 32) fun _ => .bind .u64 fun _ => .bind .u64 fun _ =>
  .bind .u32 fun _ => .bind .point fun _ => .bind (.octets 3) fun _ => .pure _

theorem Header.asks_decoder : Asks newer Header.decoder :=
  .bind (.octets 32) fun _ => .bind .u8 fun _ => .bind (.octets 32) fun _ =>
  .bind (.octets 32) fun _ => .bind StateTree.asks_decoder fun _ => .bind (.octets 32) fun _ =>
  .bind .u64 fun _ => .bind .u64 fun _ => .bind .u32 fun _ => .bind (.octets 32) fun _ =>
  .bind .point fun _ => .bind .point fun _ => .bind (.octets 8) fun _ =>
  .bind BigInt.asks_decoder fun _ => .bind (.octets 3) fun _ => .pure _

theorem Proposition.asks_decoder : Asks newer Proposition.decoder := by
  have hlevels (levels : Nat) : Asks newer (decoderWithin levels) := by
    induction levels with
    | zero => exact .malformed not_false
    | succ levels ih =>
      -- three of the nodes have children, and read them alike
      have hchildren : Asks newer (nodeDecoder.children (decoderWithin levels)) :=
        .bind (.number 4) fun n => .check not_false (ih.replicate n)
      refine .bind .u8 fun tag => ?_
      split
      · exact .pure _
      · exact .pure _
      · exact .bind .point fun _ => .pure _
      · exact .bind .point fun _ => .bind .point fun _ => .bind .point fun _ =>
          .bind .point fun _ => .pure _
      · exact .bind hchildren fun _ => .pure _
      · exact .bind hchildren fun _ => .pure _
      · exact .bind (.number 4) fun _ => .bind hchildren fun _ => .pure _
      · exact .malformed not_false
  exact hlevels _

end

/-! ## Values -/

section

variable [Suite] {box : Decoder Box} (hbox : Asks newer box)
include hbox

theorem AtomType.asks_dataDecoder (a : AtomType) : Asks newer (a.dataDecoder box) := by
  cases a with
  | bool => exact .bind (asks_flagDecoder not_false) fun _ => .pure _
  | byte => exact .bind .u8 fun _ => .pure _
  | short => exact .bind .u16 fun _ => .pure _
  | int => exact .bind .u32 fun _ => .pure _
  | long => exact .bind .u64 fun _ => .pure _
  | bigInt => exact .bind BigInt.asks_decoder fun _ => .pure _
  | groupElement => exact .bind .point fun _ => .pure _
  | sigmaProp => exact .bind Proposition.asks_decoder fun _ => .pure _
  | box => exact .bind hbox fun _ => .pure _
  | stateTree => exact .bind StateTree.asks_decoder fun _ => .pure _
  | header => exact .bind Header.asks_decoder fun _ => .pure _
  | preHeader => exact .bind PreHeader.asks_decoder fun _ => .pure _

omit hbox in
mutual

theorem ValueType.asks_dataDecoder (hbox : Asks newer box) :
    (t : ValueType) → Asks newer (t.dataDecoder box)
  | .atom a => a.asks_dataDecoder hbox
  | .coll t => .ite (.bind .string fun _ => .pure _)
      (.bind .count fun n => .bind ((ValueType.asks_dataDecoder hbox t).replicate n) fun _ =>
        .pure _)
  | .tuple ts => .bind (ValueType.asks_dataDecoderAll hbox ts) fun _ => .pure _
  | .option t => .bind (asks_flagDecoder not_false) fun _ =>
      .ite (.bind (ValueType.asks_dataDecoder hbox t) fun _ => .pure _) (.pure _)

theorem ValueType.asks_dataDecoderAll (hbox : Asks newer box) : (ts : List ValueType) →
    Asks newer (ValueType.dataDecoderAll box ts)
  | [] => .pure _
  | t :: ts => .bind (ValueType.asks_dataDecoder hbox t) fun _ =>
      .bind (ValueType.asks_dataDecoderAll hbox ts) fun _ => .pure _

end

theorem Value.asks_decoderWith : Asks newer (Value.decoderWith box) :=
  .bind ValueType.asks_decoder fun t => ValueType.asks_dataDecoder hbox t

end

/-! ## Expressions and boxes -/

/-- An octet that stands for no operation, or for a later one, asks for a newer version. -/
theorem Expr.asks_opcodeDecoder (version : UInt8) : Asks True (opcodeDecoder version) where
  suffix {b op r} hrun := by
    obtain ⟨code, m, hcode, hrest⟩ := bind_eq_ok.1 hrun
    have hu8 : Asks True Decoder.u8 := .u8
    have hsuffix := hu8.suffix hcode
    cases hop : Opcode.ofCode? code with
    | none =>
      simp only [hop] at hrest
      cases hrest
    | some op =>
      simp only [hop] at hrest
      split at hrest <;> cases hrest
      exact hsuffix
  reason _ _ := trivial

/-- Whatever stands in the script of a box, the box leaves the end of its input. -/
theorem Box.asks_decoderWith {value : Decoder Value} (hvalue : Asks True value) :
    Asks True (Box.decoderWith value) := by
  have hcandidate : Asks True (Candidate.decoderWith value) :=
    .bind .u64 fun _ => .bind .string fun _ => .bind (.lift fun _ _ _ => trivial) fun _ =>
    .bind .u32 fun _ => .bind (.number 4) fun n => .check not_false
    (.bind (Token.asks_decoder.replicate n) fun _ => .bind (.number 4) fun m => .check not_false
    (.bind (hvalue.replicate m) fun _ => .pure _))
  exact .bind hcandidate fun _ => .bind (.octets 32) fun _ => .bind .u32 fun _ =>
    .check not_false (.pure _)

theorem Box.asks_decoderWithin [Suite] (levels : Nat) : Asks True (Box.decoderWithin levels) := by
  induction levels with
  | zero => exact .fail not_false
  | succ levels ih => exact Box.asks_decoderWith (Value.asks_decoderWith ih)

end Covenant

/-
  CANONICAL — every object has one encoding, and the decoders accept no other.

  Whatever a decoder reads off the front of an input stands there in its encoding: flags, booleans,
  header bits, sizes and opcodes are all checked, so that none of them can be written in a second
  form.  Decoders are faithful to this with all levels of boxes (`Script.Boxes`); here it is stated
  for each reader, and what it means for hashes: an id or a script hash computed from what was read
  is the hash of the octets themselves.
-/
import Covenant.Ledger.Address
import Covenant.Proofs.Script.Boxes
import Covenant.Proofs.Suite.Residues

namespace Covenant

namespace Decoder

variable {α : Type} {d : Decoder α} {enc : α → Bytes}

/-- What is read stands in the input in its encoding, so that the same is read from no two
strings. -/
structure Canonical (d : Decoder α) (enc : α → Bytes) : Prop where
  spelled : ∀ {b x rest}, d b = .ok (x, rest) → b = enc x ++ rest
  unique : ∀ {b b' x rest}, d b = .ok (x, rest) → d b' = .ok (x, rest) → b = b'

theorem Canonical.of_spelled (h : ∀ {b x rest}, d b = .ok (x, rest) → b = enc x ++ rest) :
    Canonical d enc where
  spelled := h
  unique hb hb' := (h hb).trans (h hb').symm

/-- A decoder that takes the pieces of what it yields accepts only these. -/
theorem Faithful.canonical {Q : α → Bytes → Prop} (h : ∀ n, Faithful n 0 (fun _ => d) Q)
    (hq : ∀ x c, Q x c → c = enc x) : Canonical d enc :=
  .of_spelled fun hrun => by
    obtain ⟨c, hb, hc, -⟩ := plain h hrun
    rw [hb, hq _ _ hc]

/-- A whole string that is read is the encoding of what it is read as. -/
theorem Canonical.eq_of_exactly (h : Canonical d enc) {b : Bytes} {x : α}
    (hrun : d.exactly b = .ok x) : enc x = b := by
  simpa using (h.spelled (exactly_eq_ok.1 hrun)).symm

end Decoder

open Decoder

section

variable [Suite]

theorem Expr.canonical_decoder (version : UInt8) : Canonical (Expr.decoder version) Expr.toBytes :=
  Faithful.canonical (fun _ => Expr.faithful_decoder version) fun _ _ h => h.1

theorem Box.canonical_decoder : Canonical Box.decoder Box.toBytes :=
  Faithful.canonical (fun _ => Box.faithful_decoder) fun _ _ h => h.1

/-- **Encodings are canonical**: of types, values, chain data, outputs, boxes, expressions at any
version, and conditions, those that could not be read included.  The id of a box that was read, and
the address of a script, are hashes of the octets it was read from. -/
theorem encode_decode :
    Canonical ValueType.decoder (fun t => Piece.join t.pieces) ∧
    Canonical Value.decoder Value.toBytes ∧
    Canonical Header.decoder (fun h => Piece.join h.pieces) ∧
    Canonical PreHeader.decoder (fun h => Piece.join h.pieces) ∧
    Canonical StateTree.decoder (fun t => Piece.join t.pieces) ∧
    Canonical Candidate.decoder Candidate.toBytes ∧
    Canonical Box.decoder Box.toBytes ∧
    (∀ version, Canonical (Expr.decoder version) Expr.toBytes) ∧
    (∀ b c, Condition.ofBytes b = .ok c →
      c.toBytes = b ∧ ∀ b', Condition.ofBytes b' = .ok c → b = b') ∧
    (∀ b x, Box.decoder.exactly b = .ok x → x.id = domainHash "box" b) ∧
    ∀ version b e, (Expr.decoder version).exactly b = .ok e →
      Address.ofScript e = .scriptHash (hashScript b) := by
  refine ⟨?_, ?_, ?_, ?_, ?_, ?_, Box.canonical_decoder, Expr.canonical_decoder, ?_, ?_, ?_⟩
  · exact Faithful.canonical (fun _ => ValueType.faithful_decoder) fun _ _ h => h.1
  · exact Faithful.canonical (fun _ => Value.faithful_decoder) fun _ _ h => h.1
  · exact Faithful.canonical (fun _ => Header.faithful_decoder) fun _ _ h => h.1
  · exact Faithful.canonical (fun _ => PreHeader.faithful_decoder) fun _ _ h => h.1
  · exact Faithful.canonical (fun _ => StateTree.faithful_decoder) fun _ _ h => h
  · exact Faithful.canonical (fun _ => Candidate.faithful_decoder) fun _ _ h => h.1
  · intro b c hb
    have hbytes := Condition.toBytes_of_ofBytes hb
    exact ⟨hbytes, fun b' hb' => hbytes.symm.trans (Condition.toBytes_of_ofBytes hb')⟩
  · intro b x hb
    rw [Box.id, Box.canonical_decoder.eq_of_exactly hb]
  · intro version b e hb
    rw [Address.ofScript, (Expr.canonical_decoder version).eq_of_exactly hb]

end

/-! ## A condition that cannot be read -/

section

attribute [local instance] Suite.residues

/-- A condition that carries its length and has an opcode for its body that nothing has. -/
def unreadCondition : Bytes := [0x08, 1, 0, 0, 0, 0xff]

/-- A box with this condition. -/
def unreadBox : Bytes :=
  Bytes.toLE 8 3 ++ (Bytes.toLE 4 6 ++ (unreadCondition ++ (List.replicate 12 0 ++
    (List.replicate 32 1 ++ Bytes.toLE 4 2))))

/-- The script that is the constant `true`. -/
def trueScript : Bytes := [0x01, 0x01, 1]

set_option maxRecDepth 2000 in
/-- All three are read, the condition as one that is kept octet for octet, and written as they
were. -/
theorem encode_decode_unreadBox :
    (∃ x, Box.decoder.exactly unreadBox = .ok x ∧ x.candidate.condition.root? = none ∧
      x.toBytes = unreadBox ∧ x.id = domainHash "box" unreadBox) ∧
    (∃ c, Condition.ofBytes unreadCondition = .ok c ∧ c.toBytes = unreadCondition) ∧
    ∃ e, (Expr.decoder 0).exactly trueScript = .ok e ∧
      Address.ofScript e = .scriptHash (hashScript trueScript) := by
  -- all three are read, whatever they come to
  have hbox : ∃ x, Box.decoder.exactly unreadBox = .ok x ∧
      x.candidate.condition.root? = none :=
    ⟨_, by with_unfolding_all rfl, by with_unfolding_all rfl⟩
  have hcondition : ∃ c, Condition.ofBytes unreadCondition = .ok c :=
    ⟨_, by with_unfolding_all rfl⟩
  have hscript : ∃ e, (Expr.decoder 0).exactly trueScript = .ok e :=
    ⟨_, by with_unfolding_all rfl⟩
  obtain ⟨-, -, -, -, -, -, hboxes, -, hconditions, hids, hscripts⟩ := encode_decode
  obtain ⟨x, hbox, hroot⟩ := hbox
  obtain ⟨c, hcondition⟩ := hcondition
  obtain ⟨e, hscript⟩ := hscript
  exact ⟨⟨x, hbox, hroot, hboxes.eq_of_exactly hbox, hids _ x hbox⟩,
    ⟨c, hcondition, (hconditions _ c hcondition).1⟩, ⟨e, hscript, hscripts 0 _ e hscript⟩⟩

end

end Covenant

/-
  SURVIVAL — encodable objects survive encoding.

  What is encodable is read back from its own octets, in front of any others: types, values,
  expressions at every version that provides them, outputs and boxes.  A condition is read from a
  whole string, so nothing follows it.

  The instance is a box in the register of another one.  The inner condition filters its inputs,
  which needs version one and so a length; the outer one takes its proposition from a table of
  constants.
-/
import Covenant.Proofs.Script.Restoring

namespace Covenant

section

variable [Suite]

/-- **Encodable objects survive encoding**, whatever follows their octets. -/
theorem decode_encode :
    (∀ t : ValueType, t.Encodable →
      ∀ rest, ValueType.decoder (Piece.join t.pieces ++ rest) = .ok (t, rest)) ∧
    (∀ v : Value, v.Encodable → ∀ rest, Value.decoder (v.toBytes ++ rest) = .ok (v, rest)) ∧
    (∀ e : Expr, e.Encodable → ∀ version, e.requiredVersion ≤ version →
      ∀ rest, Expr.decoder version (e.toBytes ++ rest) = .ok (e, rest)) ∧
    (∀ c : Condition, c.Encodable → Condition.ofBytes c.toBytes = .ok c) ∧
    (∀ c : Candidate, c.Encodable →
      ∀ rest, Candidate.decoder (c.toBytes ++ rest) = .ok (c, rest)) ∧
    (∀ b : Box, b.Encodable → ∀ rest, Box.decoder (b.toBytes ++ rest) = .ok (b, rest)) := by
  refine ⟨fun t ht => ?_, fun v hv => ?_, fun e he version hversion => ?_, fun c hc => ?_,
    fun c hc => ?_, fun b hb => ?_⟩
  · exact ValueType.reads_decoder ht
  · exact hv.reads
  · exact he.reads hversion
  · exact hc.ofBytes_toBytes
  · exact hc.reads
  · exact hb.reads

end

/-! ## A box inside a box -/

section

attribute [local instance] Suite.residues

open Suite

/-- Whether some input is worth more than five: the inputs that are, counted. -/
def anyRichInput : Expr :=
  .binary (.compare .gt)
    (.unary .sizeOf (.loop .filter (.context .inputs) ⟨[(1, .box)], .bool⟩
      (.binary (.compare .gt) (.unary (.extract .value) (.use 1)) (.const (.long 5)))))
    (.const (.int 0))

theorem encodable_anyRichInput : anyRichInput.Encodable := by
  have htype (a : AtomType) : (ValueType.atom a).Encodable := ⟨Nat.zero_le _, True.intro⟩
  have hvalue : (Expr.unary (.extract .value) (.use 1)).Fits := by
    refine .node True.intro nofun ?_ nofun
    exact List.forall_mem_singleton.2 (.leaf True.intro rfl rfl rfl)
  have hrich : (Expr.binary (.compare .gt) (.unary (.extract .value) (.use 1))
      (.const (.long 5))).Fits := by
    refine .node True.intro nofun ?_ nofun
    exact List.forall_mem_cons.2 ⟨hvalue, List.forall_mem_singleton.2
      (.const (Value.encodable_atom True.intro))⟩
  have hfilter : (Expr.loop .filter (.context .inputs) ⟨[(1, .box)], .bool⟩
      (.binary (.compare .gt) (.unary (.extract .value) (.use 1)) (.const (.long 5)))).Fits := by
    refine .node ⟨by decide, ?_, htype .bool⟩ nofun ?_ ?_
    · exact List.forall_mem_singleton.2 (htype .box)
    · exact List.forall_mem_singleton.2 (.leaf True.intro rfl rfl rfl)
    · exact List.forall_mem_singleton.2 hrich
  refine .intro (by decide) (.node True.intro nofun ?_ nofun)
  refine List.forall_mem_cons.2 ⟨.node True.intro nofun ?_ nofun, List.forall_mem_singleton.2
    (.const (Value.encodable_atom True.intro))⟩
  exact List.forall_mem_singleton.2 hfilter

/-- A box that a transaction with a rich input may spend. -/
def richInputBox : Box := ⟨⟨7, .new anyRichInput, [], [], 0⟩, .zero 32, 2⟩

theorem encodable_richInputBox : richInputBox.Encodable := by
  have hcondition : (Condition.new anyRichInput).Encodable :=
    .parsed (.new anyRichInput) ⟨by decide, by decide⟩ (List.forall_mem_nil _)
      encodable_anyRichInput
  exact .intro (.intro hcondition (by decide) (by decide) (by decide) (List.forall_mem_nil _))

/-- A box with a token, the other box in a register, and a condition that asks for a logarithm: the
first of two constants. -/
def carryingBox : Box :=
  ⟨⟨9, .withConstants [.sigmaProp (.dlog (multiple 3)), .option .bytes (some (.bytes [1, 2]))]
      (.placeholder 0), [⟨.zero 32, 4⟩], [.seq .box [.box richInputBox]], 11⟩, .zero 32, 0⟩

/-- Its condition and its registers are encodable, and so is the box. -/
theorem encodable_carryingBox : carryingBox.Encodable := by
  have hkey : (Value.sigmaProp (.dlog (multiple 3))).Encodable :=
    Value.encodable_atom ⟨List.forall_mem_singleton.2 (by decide), by decide⟩
  have hoption : (Value.option .bytes (some (.bytes [1, 2]))).Encodable :=
    .intro ⟨by decide, True.intro⟩ (.some rfl (.bytes (by decide)))
  have hcondition : carryingBox.candidate.condition.Encodable := by
    refine .parsed (.withConstants _ _) ⟨by decide, by decide⟩ ?_
      (.intro (by decide) (.leaf True.intro rfl rfl rfl))
    exact List.forall_mem_cons.2 ⟨hkey, List.forall_mem_singleton.2 hoption⟩
  have hregister : (Value.seq .box [.box richInputBox]).Encodable := by
    refine .intro ⟨by decide, True.intro⟩ (.seq (by decide) ?_ (by decide) ?_)
    · exact List.forall_mem_singleton.2 rfl
    · exact List.forall_mem_singleton.2 (.box encodable_richInputBox)
  exact .intro (.intro hcondition (by decide) (by decide) (by decide)
    (List.forall_mem_singleton.2 hregister))

/-- The box and what is in it are read back: the type of the register and its value, the inner
expression at the version it needs, both conditions. -/
theorem decode_encode_carryingBox :
    (ValueType.coll .box).Encodable ∧
    ValueType.decoder (Piece.join (ValueType.coll .box).pieces ++ [1]) =
      .ok (.coll .box, [1]) ∧
    (Value.seq .box [.box richInputBox]).Encodable ∧
    Value.decoder ((Value.seq .box [.box richInputBox]).toBytes ++ [1]) =
      .ok (.seq .box [.box richInputBox], [1]) ∧
    anyRichInput.Encodable ∧ anyRichInput.requiredVersion ≤ 1 ∧
    (Expr.decoder 1) (anyRichInput.toBytes ++ [1]) = .ok (anyRichInput, [1]) ∧
    (Condition.new anyRichInput).Encodable ∧
    Condition.ofBytes (Condition.new anyRichInput).toBytes = .ok (.new anyRichInput) ∧
    carryingBox.candidate.Encodable ∧
    Candidate.decoder (carryingBox.candidate.toBytes ++ [1]) = .ok (carryingBox.candidate, [1]) ∧
    carryingBox.Encodable ∧ Box.decoder (carryingBox.toBytes ++ [1]) = .ok (carryingBox, [1]) := by
  obtain ⟨htypes, hvalues, hexprs, hconditions, hcandidates, hboxes⟩ := decode_encode
  have hbox := encodable_carryingBox
  obtain ⟨hcandidate⟩ := id hbox
  obtain ⟨-, -, -, -, hregisters⟩ := id hcandidate
  have hregister : (Value.seq .box [.box richInputBox]).Encodable :=
    hregisters _ (List.mem_singleton.2 rfl)
  have htype : (ValueType.coll .box).Encodable := ⟨by decide, True.intro⟩
  obtain ⟨hinner, -⟩ : richInputBox.candidate.Encodable := by
    obtain ⟨h⟩ := encodable_richInputBox
    exact h
  exact ⟨htype, htypes _ htype [1], hregister, hvalues _ hregister [1], encodable_anyRichInput,
    by decide, hexprs _ encodable_anyRichInput 1 (by decide) [1], hinner, hconditions _ hinner,
    hcandidate, hcandidates _ hcandidate [1], hbox, hboxes _ hbox [1]⟩

end

end Covenant

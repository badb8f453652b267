/-
  TRANSPORT — transactions and envelopes survive encoding, and ids ignore proofs.

  A transaction is encodable when its lists can be counted and what they hold is encodable; an
  envelope, when its transaction is, fits into a byte string, and has propositions within the limits
  of their codec.  Encodable values and outputs are read back, so transactions and envelopes have
  readable parts, and are read back themselves.

  The message that proofs sign is the transaction with empty proofs, written by one encoder and read
  by the decoder of signed transactions.  Since it is read back to the transaction, no two
  transactions have one message; and since proofs are no part of it, attaching them changes neither
  the message nor the id.
-/
import Covenant.Proofs.Ledger.Envelopes
import Covenant.Proofs.Ledger.Signing
import Covenant.Proofs.Script.Restoring

namespace Covenant

open Decoder

section

variable [Suite]

/-! ## What can be carried -/

theorem Value.Encodable.readable {v : Value} (h : v.Encodable) : v.Readable := by
  obtain ⟨_, -, ⟨-, hv⟩, -⟩ := Faithful.plain (fun _ => Value.faithful_decoder) (h.reads [])
  exact hv

theorem Candidate.Encodable.readable {c : Candidate} (h : c.Encodable) : c.Readable := by
  obtain ⟨_, -, ⟨-, hc⟩, -⟩ := Faithful.plain (fun _ => Candidate.faithful_decoder) (h.reads [])
  exact hc

/-- The lists can be counted, and the variables and outputs in them are encodable. -/
structure UnsignedTx.Encodable (tx : UnsignedTx) : Prop where
  inputs_le : tx.inputs.length ≤ Piece.maxSize
  values : ∀ i ∈ tx.inputs, ∀ e ∈ i.extension.entries, e.2.Encodable
  dataInputs_le : tx.dataInputs.length ≤ Piece.maxSize
  outputs_le : tx.outputs.length ≤ maxOutputs
  outputs : ∀ c ∈ tx.outputs, c.Encodable

/-- The transaction without its proofs is encodable, and the proofs have lengths that fit. -/
structure SignedTx.Encodable (tx : SignedTx) : Prop where
  unsigned : tx.unsigned.Encodable
  proofs_le : ∀ i ∈ tx.inputs, i.proof.length ≤ Piece.maxSize

/-- The transaction is encodable and fits into a byte string, and the propositions are within the
limits of their codec. -/
structure ReducedTx.Encodable (r : ReducedTx) : Prop where
  tx : r.tx.Encodable
  length_le : r.tx.toBytes.length ≤ Piece.maxSize
  propositions : ∀ i ∈ r.inputs, i.proposition.WithinLimits

theorem UnsignedTx.Encodable.readable {tx : UnsignedTx} (h : tx.Encodable) : tx.Readable where
  inputs_le := h.inputs_le
  extensions i hi e he := (h.values i hi e he).readable
  dataInputs_le := h.dataInputs_le
  outputs_le := h.outputs_le
  outputs c hc := (h.outputs c hc).readable

theorem SignedTx.Encodable.readable {tx : SignedTx} (h : tx.Encodable) : tx.Readable :=
  ⟨h.unsigned.readable, h.proofs_le⟩

theorem ReducedTx.Encodable.readable {r : ReducedTx} (h : r.Encodable) : r.Readable where
  tx := h.tx.readable
  length_le := h.length_le
  propositions i hi := ⟨(h.propositions i hi).readable, (h.propositions i hi).depth_le⟩

/-! ## Proofs and ids -/

/-- Attaching proofs succeeds when there is one for each input.  The transaction stays the same, so
its id does, and empty proofs leave its octets as they are. -/
theorem UnsignedTx.sign_spec {tx : UnsignedTx} {proofs : List Bytes}
    (hlen : proofs.length = tx.inputs.length) : ∃ signed, tx.sign proofs = .ok signed ∧
      signed.inputs.map SignedInput.proof = proofs ∧ signed.unsigned = tx ∧ signed.id = tx.id ∧
      ((∀ p ∈ proofs, p = []) → signed.toBytes = tx.toBytes) := by
  obtain ⟨hinputs, hproofs⟩ := ReducedTx.attached_spec hlen
  refine ⟨_, if_neg (not_not.2 hlen), hproofs, ?_⟩
  generalize List.zipWith _ tx.inputs proofs = attached at hinputs hproofs ⊢
  have hunsigned : (⟨attached, tx.dataInputs, tx.outputs⟩ : SignedTx).unsigned = tx := by
    rw [SignedTx.unsigned, hinputs]
  refine ⟨hunsigned, congrArg UnsignedTx.id hunsigned, fun hempty => ?_⟩
  have hnone : ∀ i ∈ attached, i.proof = [] := fun i hi =>
    hempty i.proof (hproofs ▸ List.mem_map_of_mem hi)
  have hattached : tx.unproved = ⟨attached, tx.dataInputs, tx.outputs⟩ :=
    hunsigned ▸ unproved_unsigned hnone
  rw [← hattached, toBytes_unproved]

/-! ## The main statement -/

/-- **Transactions and envelopes survive encoding, and ids ignore proofs.**  So two transactions
with one message to sign are the same, and an envelope changes nothing of what it carries. -/
theorem transactions_travel :
    (∀ tx : SignedTx, tx.Encodable → SignedTx.ofBytes tx.toBytes = .ok tx) ∧
    (∀ tx : UnsignedTx, tx.Encodable → UnsignedTx.ofBytes tx.toBytes = .ok tx) ∧
    (∀ r : ReducedTx, r.Encodable → ReducedTx.ofBytes r.toBytes = .ok r) ∧
    (∀ (tx : UnsignedTx) (proofs : List Bytes), proofs.length = tx.inputs.length →
      ∃ signed, tx.sign proofs = .ok signed ∧ signed.inputs.map SignedInput.proof = proofs ∧
        signed.unsigned = tx ∧ signed.id = tx.id ∧
        ((∀ p ∈ proofs, p = []) → signed.toBytes = tx.toBytes)) ∧
    (∀ tx tx' : UnsignedTx, tx.Encodable → tx'.Encodable → tx.toBytes = tx'.toBytes → tx = tx') ∧
    (∀ r r' : ReducedTx, r.Encodable → ReducedTx.ofBytes r.toBytes = .ok r' →
      r'.tx.toBytes = r.tx.toBytes ∧ r'.totalCost = r.totalCost ∧
      r'.inputs.map (fun i => (i.proposition, i.cost, i.extension)) =
        r.inputs.map fun i => (i.proposition, i.cost, i.extension)) := by
  have hunsigned (tx : UnsignedTx) (h : tx.Encodable) : UnsignedTx.ofBytes tx.toBytes = .ok tx :=
    UnsignedTx.ofBytes_toBytes h.readable
  have hreduced (r : ReducedTx) (h : r.Encodable) : ReducedTx.ofBytes r.toBytes = .ok r :=
    ReducedTx.ofBytes_toBytes h.readable
  refine ⟨fun tx h => ?_, hunsigned, hreduced, fun tx proofs => UnsignedTx.sign_spec,
    fun tx tx' h h' heq => ?_, fun r r' h hread => ?_⟩
  · exact SignedTx.ofBytes_eq_ok_iff.2 ⟨h.readable, tx.spelled_toBytes⟩
  · have hread := hunsigned tx h
    rw [heq, hunsigned tx' h'] at hread
    exact (Except.ok.inj hread).symm
  · rw [hreduced r h] at hread
    obtain rfl := Except.ok.inj hread
    exact ⟨rfl, rfl, rfl⟩

end

/-! ## A transaction with variables, a data input and an output -/

section

attribute [local instance] Suite.residues

open Suite

/-- Variables that were given out of order. -/
def twoVariables : Extension := .ofList [(7, .int 3), (1, .bytes [1, 2, 3])]

/-- Spends a box with these variables, looks at another, and has one output. -/
def payToKey : UnsignedTx :=
  ⟨[⟨.zero 32, twoVariables⟩], [.zero 32],
    [⟨5, .ofProposition (.dlog (multiple 3)), [⟨.zero 32, 2⟩], [.long 8], 40⟩]⟩

theorem encodable_payToKey : payToKey.Encodable := by
  have hkey : (Value.sigmaProp (.dlog (multiple 3))).Encodable :=
    Value.encodable_atom ⟨List.forall_mem_singleton.2 (by decide), by decide⟩
  have hcondition : (Condition.ofProposition (.dlog (multiple 3))).Encodable :=
    .parsed (.ofProposition _) ⟨by decide, by decide⟩ nofun (.intro (by decide) (.const hkey))
  have hbytes : (Value.bytes [1, 2, 3]).Encodable :=
    .intro ⟨by decide, True.intro⟩ (.bytes (by decide))
  refine ⟨by decide, ?_, by decide, by decide, ?_⟩
  · refine List.forall_mem_singleton.2 (List.forall_mem_cons.2 ⟨hbytes, ?_⟩)
    exact List.forall_mem_singleton.2 (Value.encodable_atom True.intro)
  · refine List.forall_mem_singleton.2 (.intro hcondition (by decide) (by decide) (by decide) ?_)
    exact List.forall_mem_singleton.2 (Value.encodable_atom True.intro)

/-- What the transaction comes down to when its input asks for the same key. -/
def payToKeyReduced : ReducedTx :=
  ⟨payToKey, [⟨.dlog (multiple 3), 50, twoVariables⟩], 90, beq_iff_eq.2 rfl⟩

set_option maxRecDepth 2000 in
theorem encodable_payToKeyReduced : payToKeyReduced.Encodable :=
  ⟨encodable_payToKey, by decide, List.forall_mem_singleton.2
    ⟨List.forall_mem_singleton.2 (by decide), by decide⟩⟩

/-- The transaction, the same with a proof of two octets, and the envelope are read back; an empty
proof leaves the message as it is. -/
theorem transactions_travel_payToKey :
    payToKey.Encodable ∧ UnsignedTx.ofBytes payToKey.toBytes = .ok payToKey ∧
    (∃ signed, payToKey.sign [[8, 9]] = .ok signed ∧ signed.Encodable ∧
      SignedTx.ofBytes signed.toBytes = .ok signed ∧ signed.unsigned = payToKey ∧
      signed.id = payToKey.id) ∧
    (∃ signed, payToKey.sign [[]] = .ok signed ∧ signed.toBytes = payToKey.toBytes) ∧
    (∀ tx : UnsignedTx, tx.Encodable → payToKey.toBytes = tx.toBytes → payToKey = tx) ∧
    payToKeyReduced.Encodable ∧
    ReducedTx.ofBytes payToKeyReduced.toBytes = .ok payToKeyReduced ∧
    (∀ r, ReducedTx.ofBytes payToKeyReduced.toBytes = .ok r → r.totalCost = 90) := by
  obtain ⟨hsigned, hunsigned, hreduced, hsign, hunique, hcarried⟩ := transactions_travel
  have htx := encodable_payToKey
  have hr := encodable_payToKeyReduced
  refine ⟨htx, hunsigned _ htx, ?_, ?_, fun tx h => hunique _ tx htx h, hr, hreduced _ hr,
    fun r h => (hcarried _ r hr h).2.1⟩
  · obtain ⟨signed, hok, hproofs, heq, hid, -⟩ := hsign payToKey [[8, 9]] rfl
    have hlength : ∀ p ∈ signed.inputs.map SignedInput.proof, p.length ≤ Piece.maxSize := by
      rw [hproofs]
      decide
    have hencodable : signed.Encodable := ⟨heq.symm ▸ htx, List.forall_mem_map.1 hlength⟩
    exact ⟨signed, hok, hencodable, hsigned _ hencodable, heq, hid⟩
  · obtain ⟨signed, hok, -, -, -, hbytes⟩ := hsign payToKey [[]] rfl
    exact ⟨signed, hok, hbytes (by decide)⟩

end

end Covenant

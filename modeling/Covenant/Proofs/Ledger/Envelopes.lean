/-
  ENVELOPES — which octets are a reduced transaction.

  An envelope holds an unsigned transaction, as a byte string of its own, and for each input its
  proposition, its cost and its variables once more.  All of this has one form but for the order of
  variables, which may be another in the transaction than beside it.  So an envelope, too, has a
  spelling for each choice of orders, and these are what is read as it
  (`ReducedTx.ofBytes_eq_ok_iff`).
-/
import Covenant.Proofs.Codec.Roundtrip
import Covenant.Proofs.Ledger.Transactions
import Covenant.Proofs.Script.Equality
import Covenant.Ledger.Envelope

namespace Covenant

open Decoder

/-! ## Reduced inputs -/

/-- The octets are the reduced input with its variables in any order. -/
def ReducedInput.Spelled (i : ReducedInput) (b : Bytes) : Prop :=
  ∃ c, i.extension.Spelled c ∧
    b = i.proposition.toBytes ++ ((Piece.u64 "cost" i.cost).octets ++ c)

theorem ReducedInput.join_pieces (i : ReducedInput) : Piece.join i.pieces =
    i.proposition.toBytes ++
      ((Piece.u64 "cost" i.cost).octets ++ Piece.join i.extension.pieces) := by
  simp [pieces, Proposition.toBytes]

theorem ReducedInput.spelled_pieces (i : ReducedInput) : i.Spelled (Piece.join i.pieces) :=
  ⟨_, i.extension.spelled_pieces, i.join_pieces⟩

theorem ReducedInput.Spelled.length_eq {i : ReducedInput} {b : Bytes} (h : i.Spelled b) :
    b.length = (Piece.join i.pieces).length := by
  obtain ⟨c, hc, rfl⟩ := h
  simp only [i.join_pieces, List.length_append, hc.length_eq]

theorem ReducedInput.Spelled.eq_of_size_le {i : ReducedInput} {b : Bytes} (h : i.Spelled b)
    (hi : i.extension.size ≤ 1) : b = Piece.join i.pieces := by
  obtain ⟨c, hc, rfl⟩ := h
  rw [hc.eq_of_size_le hi, i.join_pieces]

namespace ReducedTx

/-- The octets behind the version are the reduced transaction, with variables in any order. -/
def BodySpelled (r : ReducedTx) (b : Bytes) : Prop :=
  ∃ t c, r.tx.Spelled t ∧ Strung ReducedInput.Spelled r.inputs c ∧
    b = Piece.join (Piece.string "unsigned_tx" t) ++
      ((Piece.size "inputs" r.inputs.length).octets ++
        (c ++ (Piece.u64 "total_cost" r.totalCost).octets))

/-- The octets are the reduced transaction, with variables in any order. -/
def Spelled (r : ReducedTx) (b : Bytes) : Prop :=
  ∃ c, r.BodySpelled c ∧ b = envelopeMark ++ ([envelopeVersion] ++ c)

theorem toBytes_eq (r : ReducedTx) : r.toBytes = envelopeMark ++ ([envelopeVersion] ++
    (Piece.join (Piece.string "unsigned_tx" r.tx.toBytes) ++
    ((Piece.size "inputs" r.inputs.length).octets ++
    (r.inputs.flatMap (fun i => Piece.join i.pieces) ++
      (Piece.u64 "total_cost" r.totalCost).octets)))) := by
  simp [toBytes, pieces, Piece.u8, Piece.join_flatMap]

/-- The encoding is the spelling with all variables in the order of their names. -/
theorem spelled_toBytes (r : ReducedTx) : r.Spelled r.toBytes :=
  ⟨_, ⟨_, _, r.tx.spelled_toBytes, .flatMap _ fun i _ => i.spelled_pieces, rfl⟩, r.toBytes_eq⟩

theorem Spelled.length_eq {r : ReducedTx} {b : Bytes} (h : r.Spelled b) :
    b.length = r.toBytes.length := by
  obtain ⟨_, ⟨t, c, ht, hc, rfl⟩, rfl⟩ := h
  have hinputs : c.length = (Piece.join (r.inputs.flatMap ReducedInput.pieces)).length :=
    (hc.imp fun _ _ h => h.length_eq).length_eq
  simp [toBytes_eq, Piece.string, ht.length_eq, hinputs, Piece.join_flatMap]

/-- Where no input has two variables, there is one spelling. -/
theorem Spelled.eq_toBytes {r : ReducedTx} {b : Bytes} (h : r.Spelled b)
    (htx : ∀ i ∈ r.tx.inputs, i.extension.size ≤ 1)
    (hinputs : ∀ i ∈ r.inputs, i.extension.size ≤ 1) : b = r.toBytes := by
  obtain ⟨_, ⟨t, c, ht, hc, rfl⟩, rfl⟩ := h
  have hspelt := (hc.imp_of_mem fun i hi _ h => ⟨h.eq_of_size_le (hinputs i hi), True.intro⟩).spells
  rw [ht.eq_toBytes htx, hspelt.1, toBytes_eq, Piece.join_flatMap]

/-- Where an input of the transaction has two variables, there is another spelling. -/
theorem exists_spelled_ne {r : ReducedTx} (h : ∃ i ∈ r.tx.inputs, 1 < i.extension.size) :
    ∃ b, r.Spelled b ∧ b ≠ r.toBytes := by
  obtain ⟨t, ht, hne⟩ := UnsignedTx.exists_spelled_ne h
  refine ⟨_, ⟨_, ⟨t, _, ht, .flatMap _ fun i _ => i.spelled_pieces, rfl⟩, rfl⟩, ?_⟩
  simpa [toBytes_eq, Piece.string, ht.length_eq] using hne

variable [Suite] {n k : Nat}

/-- Every part can be written and is read back. -/
structure Readable (r : ReducedTx) : Prop where
  tx : r.tx.Readable
  length_le : r.tx.toBytes.length ≤ Piece.maxSize
  propositions : ∀ i ∈ r.inputs, i.proposition.Readable ∧ i.proposition.depth ≤ maxDepth

/-- The variables of a reduced input are those of an input. -/
theorem Readable.extensions {r : ReducedTx} (h : r.Readable) :
    ∀ i ∈ r.inputs, i.extension.Readable := by
  intro i hi
  have hmem : i.extension ∈ r.tx.inputs.map Input.extension :=
    r.extensions_eq ▸ List.mem_map_of_mem hi
  obtain ⟨input, hinput, heq⟩ := List.mem_map.1 hmem
  exact heq ▸ h.tx.extensions input hinput

/-! ## Reading -/

theorem faithful_inputDecoder : Faithful n k (fun _ => inputDecoder) fun i c =>
    i.Spelled c ∧ i.proposition.Readable ∧ i.proposition.depth ≤ maxDepth := by
  refine .bind Proposition.faithful_decoder ?_
  rintro p _ ⟨rfl, hp⟩
  refine .bind faithful_u64 ?_
  rintro cost _ rfl
  refine .map Extension.faithful_decoder ?_
  rintro x c ⟨hc, -⟩
  exact ⟨⟨c, hc, rfl⟩, hp⟩

theorem reads_inputDecoder {i : ReducedInput}
    (hp : i.proposition.Readable ∧ i.proposition.depth ≤ maxDepth) (hx : i.extension.Readable)
    {b : Bytes} (hb : i.Spelled b) : Reads inputDecoder b i := by
  obtain ⟨c, hc, rfl⟩ := hb
  exact (Proposition.reads_decoder hp.1 hp.2).bind
    ((reads_u64 "cost" i.cost).bind (Extension.reads_decoder hx hc).map)

/-- What is read behind the version, and that it can be written again. -/
theorem faithful_bodyDecoder : Faithful n k (fun _ => bodyDecoder) fun r c =>
    r.BodySpelled c ∧ r.Readable := by
  refine .bind faithful_string ?_
  rintro t _ ⟨rfl, ht⟩
  cases hread : UnsignedTx.ofBytes t with
  | error e =>
    cases e with
    | codec e => exact .bind (.fail (Q := fun _ _ => False) e) fun _ _ h => h.elim
    | proofCountMismatch => exact .bind (.malformed (Q := fun _ _ => False) _) fun _ _ h => h.elim
  | ok tx =>
    obtain ⟨htx, hspelled⟩ := UnsignedTx.ofBytes_eq_ok_iff.1 hread
    simp only [pure_bind]
    -- the orders of variables beside the transaction need not be those in it
    refine .bind faithful_size ?_
    rintro count _ ⟨rfl, -⟩
    refine .bind (faithful_inputDecoder.replicate _) ?_
    rintro inputs c ⟨rfl, hinputs⟩
    refine .bind faithful_u64 ?_
    rintro totalCost _ rfl
    cases hnew : new tx inputs totalCost with
    | error e => exact .fail e
    | ok r =>
      obtain ⟨rfl, rfl, rfl⟩ := new_eq_ok.1 hnew
      refine .pure ⟨⟨t, c, hspelled, hinputs.imp fun _ _ h => h.1, ?_⟩, ⟨htx, ?_, ?_⟩⟩
      · simp [Piece.string, Piece.size, Piece.u64]
      · rwa [← hspelled.length_eq]
      · exact hinputs.forall_mem fun _ _ h => h.2

theorem reads_bodyDecoder {r : ReducedTx} (h : r.Readable) {b : Bytes} (hb : r.BodySpelled b) :
    Reads bodyDecoder b r := by
  obtain ⟨t, c, ht, hc, rfl⟩ := hb
  have htx : UnsignedTx.ofBytes t = .ok r.tx := UnsignedTx.ofBytes_eq_ok_iff.2 ⟨h.tx, ht⟩
  have hlen : t.length ≤ Piece.maxSize := ht.length_eq ▸ h.length_le
  have hinputs : r.inputs.length ≤ Piece.maxSize := r.length_inputs ▸ h.tx.inputs_le
  have hnew : ReducedTx.new r.tx r.inputs r.totalCost = .ok r :=
    new_eq_ok.2 ⟨rfl, rfl, rfl⟩
  -- the transaction is read as octets of a known length and parsed on its own
  refine (reads_string hlen).bind ?_
  simp only [htx, pure_bind]
  refine (reads_size hinputs).bind ((hc.reads fun i hi c hc => ?_).bind ?_)
  · exact reads_inputDecoder (h.propositions i hi) (h.extensions i hi) hc
  · rw [← List.append_nil (Piece.u64 "total_cost" r.totalCost).octets]
    refine (reads_u64 "total_cost" r.totalCost).bind ?_
    simp only [hnew]
    exact reads_pure r

/-- Behind the mark and the version stands the body. -/
theorem ofBytes_append (b : Bytes) :
    ofBytes (envelopeMark ++ ([envelopeVersion] ++ b)) =
      EnvelopeError.ofCodec (bodyDecoder.exactly b) := rfl

omit [Suite] in
theorem ofCodec_eq_ok {α : Type} {x : Except CodecError α} {a : α} :
    EnvelopeError.ofCodec x = .ok a ↔ x = .ok a := by
  cases x <;> simp [EnvelopeError.ofCodec]

/-- **Which octets are a reduced transaction**: its spellings, when it can be written at all. -/
theorem ofBytes_eq_ok_iff {b : Bytes} {r : ReducedTx} :
    ofBytes b = .ok r ↔ r.Readable ∧ r.Spelled b := by
  constructor
  · intro hrun
    -- each check passed, so mark and version are the program's own, and what is left is the body
    obtain ⟨⟨mark, b'⟩, hmark, hafter⟩ := Outcome.bind_eq_ok.1 hrun
    obtain ⟨hmark', hafter'⟩ := Outcome.check_eq_ok.1 hafter
    obtain ⟨⟨version, body⟩, hversion, hbehind⟩ := Outcome.bind_eq_ok.1 hafter'
    obtain ⟨hversion', hbody⟩ := Outcome.check_eq_ok.1 hbehind
    obtain ⟨_, rfl, ⟨rfl, -⟩, -⟩ := Faithful.plain (fun _ => faithful_take) (ofCodec_eq_ok.1 hmark)
    obtain ⟨_, rfl, rfl, -⟩ := Faithful.plain (fun _ => faithful_u8) (ofCodec_eq_ok.1 hversion)
    obtain ⟨c, hc, ⟨hspelled, hr⟩, -⟩ := Faithful.plain (fun _ => faithful_bodyDecoder)
      (exactly_eq_ok.1 (ofCodec_eq_ok.1 hbody))
    rw [List.append_nil] at hc
    subst hc
    rw [not_not.1 hmark', not_not.1 hversion']
    exact ⟨hr, body, hspelled, rfl⟩
  · rintro ⟨hr, c, hc, rfl⟩
    rw [ofBytes_append, (reads_bodyDecoder hr hc).exactly]
    rfl

/-- **Reduced transactions travel**: one with readable parts is read back. -/
theorem ofBytes_toBytes {r : ReducedTx} (h : r.Readable) : ofBytes r.toBytes = .ok r :=
  ofBytes_eq_ok_iff.2 ⟨h, r.spelled_toBytes⟩

end ReducedTx

end Covenant

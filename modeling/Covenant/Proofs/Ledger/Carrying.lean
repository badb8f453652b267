/-
  CARRYING — what a reduction of decoded data comes down to can be carried to a signer.

  The encoding of a reduced transaction holds the unsigned transaction and, for each input, its
  proposition, cost and variables.  Transaction and variables were read, so they are read again.
  The propositions were not: evaluation put them together, and nothing says that they fit into the
  encoding but the checks along the way.  They do, because all atoms that evaluation starts from
  were decoded, the ways in which it makes new ones keep them readable, and the depth is checked at
  the end.

  1. **Contexts** — everything that a condition sees in decoded data has readable atoms
     (`BuiltTx.Decoded.context`).
  2. **The main statement** — so every reduction of decoded data has readable parts, and is read
     back (`BuiltTx.reduce_carried`).
-/
import Covenant.Proofs.Ledger.Accounting
import Covenant.Proofs.Ledger.Envelopes
import Covenant.Proofs.Suite.Residues

namespace Covenant

open Decoder

section

variable [Suite]

/-! ## Contexts -/

/-- The decoder yields the value for some input. -/
def Decoder.Gives {α : Type} (d : Decoder α) (v : α) : Prop := ∃ b r, d b = .ok (v, r)

omit [Suite] in
theorem Decoder.Gives.taken {α : Type} {d : Decoder α} {v : α} {Q : α → Bytes → Prop}
    (h : d.Gives v) (hd : ∀ n, Faithful n 0 (fun _ => d) Q) : ∃ c, Q v c := by
  obtain ⟨b, r, hrun⟩ := h
  obtain ⟨c, -, hq, -⟩ := Faithful.plain hd hrun
  exact ⟨c, hq⟩

namespace BuiltTx

/-- The transaction was read from fewer octets than a size can count, and so were the boxes and the
headers of the chain. -/
structure Decoded (b : BuiltTx) : Prop where
  tx : ∃ octets, octets.length < 2 ^ 32 ∧ UnsignedTx.ofBytes octets = .ok b.tx
  boxes : ∀ x ∈ b.boxes, Box.decoder.Gives x
  dataBoxes : ∀ x ∈ b.dataBoxes, Box.decoder.Gives x
  headers : ∀ h ∈ b.state.headers, Header.decoder.Gives h
  preHeader : PreHeader.decoder.Gives b.state.preHeader

theorem Decoded.readable {b : BuiltTx} (h : b.Decoded) :
    b.tx.Readable ∧ b.tx.toBytes.length ≤ Piece.maxSize := by
  obtain ⟨octets, hlen, hread⟩ := h.tx
  obtain ⟨hreadable, hlength⟩ := UnsignedTx.readable_of_ofBytes hread
  exact ⟨hreadable, by rw [hlength]; exact Nat.le_of_lt_succ hlen⟩

omit [Suite] in
theorem candidate_of_mem_boxesFrom {tx : TxId} {i : Nat} {cs : List Candidate} {x : Box}
    (h : x ∈ UnsignedTx.boxesFrom tx i cs) : x.candidate ∈ cs := by
  induction cs generalizing i with
  | nil => cases h
  | cons c cs ih =>
    rw [UnsignedTx.boxesFrom] at h
    split at h
    · rcases List.mem_cons.1 h with rfl | h
      · exact List.mem_cons_self ..
      · exact List.mem_cons_of_mem _ (ih h)
    · cases h

/-- Decoded boxes have readable atoms. -/
theorem has_of_gives {x : Box} (h : Box.decoder.Gives x) : x.Has Atom.Readable :=
  (h.taken fun _ => Box.faithful_decoder).elim fun _ h => h.2

/-- Everything that the condition of an input sees has readable atoms. -/
theorem Decoded.context {b : BuiltTx} (h : b.Decoded) (i : Nat) {input : Input}
    (hinput : input ∈ b.tx.inputs) :
    (b.context.forInput i input.extension).Has Atom.Readable := by
  have hbox (x : Box) (hx : Box.decoder.Gives x) : (Value.box x).Has Atom.Readable :=
    Value.has_box.2 (has_of_gives hx).registers
  exact
    { inputs := fun x hx => hbox x (h.boxes x hx)
      dataInputs := fun x hx => hbox x (h.dataBoxes x hx)
      outputs := fun x hx => Value.has_box.2
        (h.readable.1.outputs x.candidate (candidate_of_mem_boxesFrom hx)).1.registers
      headers := fun x hx =>
        ((h.headers x hx).taken fun _ => Header.faithful_decoder).elim fun _ h => h.2
      preHeader := (h.preHeader.taken fun _ => PreHeader.faithful_decoder).elim fun _ h => h.2
      extension := fun e he => (h.readable.1.extensions input hinput e he).1 }

/-- **Every reduction of decoded data can be carried to a signer**: its encoding is read back to
the same reduced transaction.  For every proposition in it has nodes of at most `maxChildren`
children, thresholds that fit into a size, points that decode, and no more than the depth that the
decoder allows. -/
theorem reduce_carried (b : BuiltTx) (hb : b.Decoded) {r : ReducedTx} (hr : b.reduce = .ok r) :
    ReducedTx.ofBytes r.toBytes = .ok r ∧
      ∀ i ∈ r.inputs, i.proposition.Readable ∧ i.proposition.depth ≤ maxDepth := by
  obtain ⟨-, -, hinputs, -, htx, -⟩ := reduce_eq_ok.1 hr
  obtain ⟨hlen, hall⟩ := reduceFrom_eq_ok.1 hinputs
  have hpropositions : ∀ x ∈ r.inputs,
      x.proposition.Readable ∧ x.proposition.depth ≤ maxDepth := by
    intro x hx
    obtain ⟨j, hj, hget⟩ := List.mem_iff_getElem.1 hx
    have hinput := List.getElem?_eq_getElem (l := b.tx.inputs) (hlen ▸ hj)
    have hat := hall j _ x hinput (hget ▸ List.getElem?_eq_getElem hj)
    obtain ⟨box, hbox, hreduce, -⟩ := reduceAt_eq_ok.1 hat
    -- the invariant of evaluation starts from the condition, the context and every script at hand
    have hctx := hb.context (0 + j) (List.mem_of_getElem? hinput)
    have hcondition : box.candidate.condition.Has Atom.Readable :=
      (has_of_gives (hb.boxes box (List.mem_of_getElem? hbox))).condition
    refine Condition.has_of_reduce Atom.kept_readable ⟨hcondition, hctx, fun s hs => ?_⟩ hreduce
    obtain ⟨_, _, _, _, _, octets, -, hdecoded⟩ := hs
    exact has_of_decodeScript hdecoded
  refine ⟨ReducedTx.ofBytes_toBytes ⟨htx ▸ hb.readable.1, htx ▸ hb.readable.2, hpropositions⟩,
    hpropositions⟩

end BuiltTx

end

/-! ## A transaction that spends a box with two keys -/

section

attribute [local instance] Suite.residues Suite.lawful_residues

open Suite

/-- A box whose condition asks for two logarithms: one is a constant of the condition, the other is
computed from a group element. -/
def twoKeysBox : Box :=
  ⟨⟨1, .new (.variadic .sigmaAnd [.const (.sigmaProp (.dlog (multiple 3))),
    .unary .proveDlog (.const (.groupElement (multiple 5)))]), [], [], 0⟩, .zero 32, 0⟩

/-- A transaction that spends it. -/
def spendTwoKeys : BuiltTx where
  tx := ⟨[⟨twoKeysBox.id, .empty⟩], [], []⟩
  boxes := [twoKeysBox]
  dataBoxes := []
  state := Context.blank.tx.state
  burn := []
  parameters := .default
  baseCost := 0

set_option maxRecDepth 1000 in
theorem decoded_spendTwoKeys : spendTwoKeys.Decoded where
  tx := ⟨spendTwoKeys.tx.toBytes, by decide, by with_unfolding_all rfl⟩
  boxes x hx := by
    have hread : Box.decoder twoKeysBox.toBytes = .ok (twoKeysBox, []) := by
      with_unfolding_all rfl
    obtain rfl : x = twoKeysBox := List.mem_singleton.1 hx
    exact ⟨twoKeysBox.toBytes, [], hread⟩
  dataBoxes := nofun
  headers := nofun
  preHeader :=
    ⟨Piece.join Context.blank.tx.state.preHeader.pieces, [], by with_unfolding_all rfl⟩

/-- What it comes down to, the conjunction of both logarithms, is carried to a signer. -/
theorem BuiltTx.reduce_carried_spendTwoKeys : spendTwoKeys.Decoded ∧
    ∃ r, spendTwoKeys.reduce = .ok r ∧ ReducedTx.ofBytes r.toBytes = .ok r ∧
      r.inputs.map ReducedInput.proposition =
        [.node .all [.dlog (multiple 3), .dlog (multiple 5)]] := by
  have hreduce : ∃ r, spendTwoKeys.reduce = .ok r ∧ r.inputs.map ReducedInput.proposition =
      [.node .all [.dlog (multiple 3), .dlog (multiple 5)]] :=
    ⟨_, by with_unfolding_all rfl, by with_unfolding_all rfl⟩
  obtain ⟨r, hr, hpropositions⟩ := hreduce
  exact ⟨decoded_spendTwoKeys, r, hr,
    (spendTwoKeys.reduce_carried decoded_spendTwoKeys hr).1, hpropositions⟩

end

end Covenant

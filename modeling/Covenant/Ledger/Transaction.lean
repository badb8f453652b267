/-
  TRANSACTION — spending boxes and creating new ones.

  An unsigned transaction names the boxes it spends, each with the variables its condition may read,
  the boxes it only looks at, and its outputs.  A signed one adds a proof to every input.  Both have
  one encoding, in which an unsigned transaction has empty proofs; that form is also the message all
  proofs sign, and its hash is the transaction's id.  So attaching proofs does not change the id.
-/
import Covenant.Ledger.Extension

namespace Covenant

/-- Most outputs of a transaction: their indices have 16 bits. -/
def maxOutputs : Nat := 65536

/-- A box to spend, with the variables for its condition. -/
structure Input where
  boxId : BoxId
  extension : Extension

/-- A transaction without proofs. -/
structure UnsignedTx where
  inputs : List Input
  /-- Boxes that are looked at and not spent. -/
  dataInputs : List BoxId
  outputs : List Candidate

/-- A box to spend, with the proof that it may be. -/
structure SignedInput where
  boxId : BoxId
  proof : Bytes
  extension : Extension

/-- A transaction with a proof for every input. -/
structure SignedTx where
  inputs : List SignedInput
  dataInputs : List BoxId
  outputs : List Candidate

/-- Why a transaction was not put together. -/
inductive TxError
  /-- There is not one proof for each input. -/
  | proofCountMismatch (expected found : Nat)
  /-- The octets do not form a transaction. -/
  | codec (e : CodecError)
deriving DecidableEq, Repr

/-- The wording of a failure. -/
def TxError.message : TxError → String
  | proofCountMismatch expected found => s!"Expected {expected} proofs, got {found}"
  | codec e => "Transaction codec error: " ++ e.message

instance : BEq Input := ⟨fun a b => a.boxId == b.boxId && a.extension == b.extension⟩

instance : BEq UnsignedTx :=
  ⟨fun a b => a.inputs == b.inputs && a.dataInputs == b.dataInputs && a.outputs == b.outputs⟩

instance : BEq SignedInput :=
  ⟨fun a b => a.boxId == b.boxId && a.proof == b.proof && a.extension == b.extension⟩

instance : BEq SignedTx :=
  ⟨fun a b => a.inputs == b.inputs && a.dataInputs == b.dataInputs && a.outputs == b.outputs⟩

/-! ## Candidates and boxes -/

/-- The box that an output becomes. -/
def Candidate.toBox (c : Candidate) (tx : TxId) (index : UInt16) : Box := ⟨c, tx, index⟩

/-! ## Encoding -/

/-- The encoding of an input with its proof. -/
def SignedInput.pieces (i : SignedInput) : List Piece :=
  .block "box_id" i.boxId :: Piece.string "proof" i.proof ++ i.extension.pieces

/-- The encoding of what follows the inputs. -/
def tailPieces (dataInputs : List BoxId) (outputs : List Candidate) : List Piece :=
  .size "data_inputs" dataInputs.length :: dataInputs.map (Piece.block "box_id") ++
  .size "outputs" outputs.length :: outputs.flatMap Candidate.pieces

namespace SignedTx

/-- The encoding. -/
def pieces (tx : SignedTx) : List Piece :=
  .size "inputs" tx.inputs.length :: tx.inputs.flatMap SignedInput.pieces ++
  tailPieces tx.dataInputs tx.outputs

/-- The binary form. -/
def toBytes (tx : SignedTx) : Bytes := Piece.join tx.pieces

/-- The transaction without its proofs. -/
def unsigned (tx : SignedTx) : UnsignedTx :=
  ⟨tx.inputs.map fun i => ⟨i.boxId, i.extension⟩, tx.dataInputs, tx.outputs⟩

end SignedTx

namespace UnsignedTx

/-- The encoding, with an empty proof for each input. -/
def pieces (tx : UnsignedTx) : List Piece :=
  .size "inputs" tx.inputs.length ::
    tx.inputs.flatMap (fun i => SignedInput.pieces ⟨i.boxId, [], i.extension⟩) ++
  tailPieces tx.dataInputs tx.outputs

/-- The binary form, which is the message that every proof signs. -/
def toBytes (tx : UnsignedTx) : Bytes := Piece.join tx.pieces

/-- The id: the hash of the message. -/
def id [Suite] (tx : UnsignedTx) : TxId := domainHash "tx" tx.toBytes

/-- The outputs as boxes with their indices from `i`. -/
def boxesFrom (tx : TxId) (i : Nat) : List Candidate → List Box
  | [] => []
  | c :: cs => if i < maxOutputs then c.toBox tx (UInt16.ofNat i) :: boxesFrom tx (i + 1) cs else []

/-- The outputs as boxes, as far as there are indices for them. -/
-- the id is that of the whole transaction, whose outputs hold no ids yet
def outputBoxes [Suite] (tx : UnsignedTx) : List Box := boxesFrom tx.id 0 tx.outputs

/-- Attaches one proof to each input, in order. -/
def sign (tx : UnsignedTx) (proofs : List Bytes) : Except TxError SignedTx :=
  if proofs.length ≠ tx.inputs.length then
    .error (.proofCountMismatch tx.inputs.length proofs.length)
  else
    .ok ⟨List.zipWith (fun i p => ⟨i.boxId, p, i.extension⟩) tx.inputs proofs, tx.dataInputs,
      tx.outputs⟩

end UnsignedTx

/-- The id, which does not depend on the proofs. -/
def SignedTx.id [Suite] (tx : SignedTx) : TxId := tx.unsigned.id

/-! ## Decoding -/

variable [Suite]

/-- Reads an input with its proof. -/
def SignedInput.decoder : Decoder SignedInput := do
  let boxId ← Decoder.octets 32
  let proof ← Decoder.string
  let extension ← Extension.decoder
  return ⟨boxId, proof, extension⟩

namespace SignedTx

/-- Reads a signed transaction. -/
def decoder : Decoder SignedTx := do
  let n ← Decoder.size
  let inputs ← Decoder.replicate n SignedInput.decoder
  let m ← Decoder.size
  let dataInputs ← Decoder.replicate m (Decoder.octets 32)
  let k ← Decoder.size
  if maxOutputs < k then Decoder.malformed .tooManyOutputs
  let outputs ← Decoder.replicate k Candidate.decoder
  return ⟨inputs, dataInputs, outputs⟩

/-- The signed transaction with the given binary form. -/
def ofBytes (b : Bytes) : Except TxError SignedTx :=
  match decoder.exactly b with
  | .ok tx => .ok tx
  | .error e => .error (.codec e)

end SignedTx

/-- The unsigned transaction with the given binary form; every proof must be empty. -/
def UnsignedTx.ofBytes (b : Bytes) : Except TxError UnsignedTx := do
  let tx ← SignedTx.ofBytes b
  if tx.inputs.any fun i => !i.proof.isEmpty then
    throw (.codec (.invalidFormat .unsignedWithProofs))
  return tx.unsigned

/-- The id that a text gives in hexadecimal. -/
def idOfHex (s : String) : Except CodecError (Octets 32) :=
  match Hex.decode s with
  | none => .error (.invalidFormat .idText)
  | some b =>
    match Bytes.toOctets? 32 b with
    | none => .error (.invalidFormat .idLength)
    | some i => .ok i

end Covenant

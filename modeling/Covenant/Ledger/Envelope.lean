/-
  ENVELOPE — a reduced transaction, in the form in which it travels to a signer.

  After reduction all that matters of an input is the proposition to be proved.  A `ReducedTx` is an
  unsigned transaction with one reduced input for each of its inputs, which has the same variables;
  the type says so.  It holds no secrets.

  Its encoding begins with a mark and a version.  A version other than the one written here is
  reported as such, whatever follows it.
-/
import Covenant.Ledger.Transaction

namespace Covenant

/-- What an input came down to. -/
structure ReducedInput where
  proposition : Proposition
  cost : UInt64
  extension : Extension

instance : BEq ReducedInput :=
  ⟨fun a b => a.proposition == b.proposition && a.cost == b.cost && a.extension == b.extension⟩

/-- A transaction of which every input was reduced. -/
structure ReducedTx where
  tx : UnsignedTx
  inputs : List ReducedInput
  /-- The cost of the whole transaction. -/
  totalCost : UInt64
  /-- The reduced inputs are those of the transaction, in order. -/
  fits : (tx.inputs.map Input.extension == inputs.map ReducedInput.extension) = true

instance : BEq ReducedTx :=
  ⟨fun a b => a.tx == b.tx && a.inputs == b.inputs && a.totalCost == b.totalCost⟩

/-- Why octets are no reduced transaction. -/
inductive EnvelopeError
  | malformed (e : CodecError)
  /-- The octets have a version that is not written here. -/
  | versionMismatch (expected found : UInt8)
deriving DecidableEq, Repr

/-- The wording of a failure. -/
def EnvelopeError.message : EnvelopeError → String
  | malformed e => "Reduced transaction deserialization failed: " ++ e.message
  | versionMismatch expected found =>
    s!"Reduced transaction version {found} is not supported (expected {expected})"

/-- The failure that a malformation causes. -/
def EnvelopeError.ofCodec {α : Type} : Except CodecError α → Except EnvelopeError α
  | .ok x => .ok x
  | .error e => .error (.malformed e)

/-- Version of the encoding. -/
def envelopeVersion : UInt8 := 1

/-- The octets every encoding begins with. -/
def envelopeMark : Bytes := [0x52, 0x54, 0x58]

/-- The encoding. -/
def ReducedInput.pieces (i : ReducedInput) : List Piece :=
  i.proposition.pieces ++ .u64 "cost" i.cost :: i.extension.pieces

namespace ReducedTx

/-- Puts a transaction and its reduced inputs together, if they fit. -/
def new (tx : UnsignedTx) (inputs : List ReducedInput) (totalCost : UInt64) :
    Except CodecError ReducedTx :=
  if tx.inputs.length ≠ inputs.length then .error (.invalidFormat .reducedCount)
  else if h : (tx.inputs.map Input.extension == inputs.map ReducedInput.extension) = true then
    .ok ⟨tx, inputs, totalCost, h⟩
  else .error (.invalidFormat .reducedExtension)

/-- The encoding. -/
def pieces (r : ReducedTx) : List Piece :=
  ⟨"magic", envelopeMark⟩ :: .u8 "version" envelopeVersion ::
    Piece.string "unsigned_tx" r.tx.toBytes ++
  .size "inputs" r.inputs.length :: r.inputs.flatMap ReducedInput.pieces ++
  [.u64 "total_cost" r.totalCost]

/-- The binary form. -/
def toBytes (r : ReducedTx) : Bytes := Piece.join r.pieces

variable [Suite]

/-- Reads a reduced input. -/
def inputDecoder : Decoder ReducedInput := do
  let proposition ← Proposition.decoder
  let cost ← Decoder.u64
  let extension ← Extension.decoder
  return ⟨proposition, cost, extension⟩

/-- Reads what follows the version. -/
def bodyDecoder : Decoder ReducedTx := do
  let tx ←
    match UnsignedTx.ofBytes (← Decoder.string) with
    | .ok tx => pure tx
    | .error (.codec e) => throw e
    | .error (.proofCountMismatch _ _) => Decoder.malformed .proofsDoNotMatch
  let n ← Decoder.size
  let inputs ← Decoder.replicate n inputDecoder
  let totalCost ← Decoder.u64
  match new tx inputs totalCost with
  | .ok r => return r
  | .error e => throw e

/-- The reduced transaction with the given binary form. -/
def ofBytes (b : Bytes) : Except EnvelopeError ReducedTx := do
  let (mark, b) ← EnvelopeError.ofCodec (Decoder.take envelopeMark.length b)
  if mark ≠ envelopeMark then throw (.malformed (.invalidFormat .notReduced))
  let (version, b) ← EnvelopeError.ofCodec (Decoder.u8 b)
  -- before the rest is read, which another version may write differently
  if version ≠ envelopeVersion then throw (.versionMismatch envelopeVersion version)
  EnvelopeError.ofCodec (bodyDecoder.exactly b)

/-- The reduced transaction that a text gives in hexadecimal. -/
def ofHex (s : String) : Except EnvelopeError ReducedTx :=
  match Hex.decode s with
  | none => .error (.malformed (.invalidFormat .reducedText))
  | some b => ofBytes b

end ReducedTx

end Covenant

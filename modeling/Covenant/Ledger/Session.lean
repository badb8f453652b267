/-
  SESSION — the way of a transaction from its assembly to its proofs.

  A `BuiltTx` has been assembled and nothing was computed.  `reduce` checks it against the boxes it
  spends, charges for its parts and reduces every input: the result is a `ReducedTx`, which `sign`
  turns into a `SignedTx` with a store of secrets.  Signing may be tried again with more secrets.

  Every input is reduced under the same limit, what the block's ceiling leaves after the charges for
  the parts; then the sum of all costs is held against the ceiling itself.
-/
import Covenant.Chain.Parameters
import Covenant.Key.Store
import Covenant.Ledger.Balance
import Covenant.Ledger.Envelope
import Covenant.Proof.Prover
import Covenant.Proof.Verifier
import Covenant.Reduction.Reduce

namespace Covenant

/-- An unsigned transaction with the boxes it spends and looks at. -/
structure BuiltTx where
  tx : UnsignedTx
  /-- The boxes to spend, in the order of the inputs. -/
  boxes : List Box
  /-- The boxes to look at, in the order of the data inputs. -/
  dataBoxes : List Box
  state : ChainState
  /-- Tokens that shall vanish. -/
  burn : List Token
  parameters : Parameters
  /-- What is charged before anything else. -/
  baseCost : UInt64

/-- Why a transaction did not get on. -/
inductive SessionError
  | reduction (e : ReductionError)
  | prover (e : ProverError)
  | verification (e : VerificationError)
  | tx (e : TxError)
  | envelope (e : EnvelopeError)
deriving DecidableEq, Repr

/-- The wording of a failure. -/
def SessionError.message : SessionError → String
  | reduction e => e.message
  | prover e => e.message
  | verification e => e.message
  | tx e => e.message
  | envelope e => e.message

namespace BuiltTx

variable [Suite]

/-! ## Before reduction -/

/-- Whether some boxes are the ones that ids name, in the same order. -/
def named (boxes : List Box) (ids : List BoxId) : Bool := boxes.map Box.id == ids

/-- Checks the boxes, the sizes of the outputs and the tokens. -/
def check (b : BuiltTx) : Except ReductionError Unit := do
  -- position by position, so ids may repeat
  if !named b.boxes (b.tx.inputs.map Input.boxId) then
    throw (.inconsistentTransaction .boxesToSpend)
  if !named b.dataBoxes b.tx.dataInputs then throw (.inconsistentTransaction .dataBoxes)
  if maxOutputs < b.tx.outputs.length then throw (.inconsistentTransaction .tooManyOutputs)
  b.tx.outputs.forM fun out => do
    if maxTokens < out.tokens.length then throw (.inconsistentTransaction .outputTokens)
    if maxRegisters < out.registers.length then throw (.inconsistentTransaction .outputRegisters)
  checkBalance b.boxes b.tx.outputs b.burn

/-- Number of token entries in the boxes spent and the outputs. -/
def tokenEntries (b : BuiltTx) : Nat :=
  (b.boxes.flatMap fun x => x.candidate.tokens).length +
  (b.tx.outputs.flatMap fun c => c.tokens).length

/-- What is charged for the parts of the transaction. -/
def initialCost (b : BuiltTx) : Nat :=
  [ b.baseCost.toNat,
    unitsCost b.tx.inputs.length b.parameters.inputCost.toNat,
    unitsCost b.tx.dataInputs.length b.parameters.dataInputCost.toNat,
    unitsCost b.tx.outputs.length b.parameters.outputCost.toNat,
    unitsCost b.tokenEntries b.parameters.tokenAccessCost.toNat ].foldl addCost 0

/-- What the conditions of all inputs share. -/
def context (b : BuiltTx) : TxContext := ⟨b.boxes, b.dataBoxes, b.tx.outputBoxes, b.state⟩

/-- Checks the transaction and gives its context with what is charged for its parts. -/
def prepare (b : BuiltTx) : Except ReductionError (TxContext × Nat) := do
  b.check
  let initial := b.initialCost
  let ceiling := b.parameters.maxBlockCost.toNat
  if ceiling < initial then throw (.costLimitExceeded initial ceiling)
  return (b.context, initial)

/-! ## Reduction -/

/-- Reduces the condition of the box at position `i` in a context. -/
def reduceAt (ctx : TxContext) (i : Nat) (x : Extension) (limit : UInt64) :
    Except ReductionError ReducedInput :=
  match ctx.inputs[i]? with
  | none => .error (.inconsistentTransaction .inputIndex)
  | some box => do
    let r ← box.candidate.condition.reduce (ctx.forInput i x) limit
    return ⟨r.proposition, r.cost, x⟩

/-- Reduces the input at a position under a limit of its own. -/
def reduceInput (b : BuiltTx) (i : Nat) (limit : UInt64) : Except ReductionError ReducedInput :=
  match b.tx.inputs[i]? with
  | none => .error (.inconsistentTransaction .inputIndex)
  | some input => do
    let (ctx, _) ← b.prepare
    reduceAt ctx i input.extension limit

/-- Reduces inputs at positions from `i`. -/
def reduceFrom (ctx : TxContext) (limit : UInt64) :
    Nat → List Input → Except ReductionError (List ReducedInput)
  | _, [] => .ok []
  | i, input :: rest => do
    let r ← reduceAt ctx i input.extension limit
    let rs ← reduceFrom ctx limit (i + 1) rest
    return r :: rs

/-- Reduces every input and checks the total cost. -/
def reduce (b : BuiltTx) : Except ReductionError ReducedTx := do
  let (ctx, initial) ← b.prepare
  let ceiling := b.parameters.maxBlockCost.toNat
  -- each input may use all that is left; the sum is checked afterwards
  let inputs ← reduceFrom ctx (UInt64.ofNat (ceiling - initial)) 0 b.tx.inputs
  let total := inputs.foldl (fun n r => addCost n r.cost.toNat) initial
  if ceiling < total then throw (.costLimitExceeded total ceiling)
  match ReducedTx.new b.tx inputs (UInt64.ofNat total) with
  | .ok r => return r
  -- one result for each input, with its extension: this does not happen
  | .error _ => throw (.inconsistentTransaction .reducedInputs)

end BuiltTx

namespace ReducedTx

variable [Suite]

/-! ## Signing -/

/-- Proves one reduced input over a message. -/
def proveOne (secrets : SecretStore) (message : Bytes) (entropy : Octets 32) (r : ReducedInput) :
    Except SessionError Bytes :=
  match prove r.proposition secrets.resolve message entropy with
  | .ok proof => .ok proof
  | .error e => .error (.prover e)

/-- Proves reduced inputs at positions from `i`; each position has entropy of its own. -/
def proveFrom (secrets : SecretStore) (message : Bytes) (entropy : Nat → Octets 32) :
    Nat → List ReducedInput → Except SessionError (List Bytes)
  | _, [] => .ok []
  | i, r :: rest => do
    let p ← proveOne secrets message (entropy i) r
    let ps ← proveFrom secrets message entropy (i + 1) rest
    return p :: ps

/-- Proves every input over the transaction's message. -/
def sign (r : ReducedTx) (secrets : SecretStore) (entropy : Nat → Octets 32) :
    Except SessionError SignedTx := do
  let proofs ← proveFrom secrets r.tx.toBytes entropy 0 r.inputs
  match r.tx.sign proofs with
  | .ok tx => return tx
  | .error e => throw (.tx e)

/-- Proves the input at a position. -/
def proveInput (r : ReducedTx) (i : Nat) (secrets : SecretStore) (entropy : Octets 32) :
    Except SessionError Bytes :=
  match r.inputs[i]? with
  | none => .error (.reduction (.inconsistentTransaction .inputIndex))
  | some input => proveOne secrets r.tx.toBytes entropy input

/-! ## Verifying -/

/-- Verifies the proofs of inputs one after the other; the one at position `i` with the `i`-th
weights. -/
def verifyFrom (message : Bytes) (weights : Nat → Nat → Suite.Scalar) :
    Nat → List ReducedInput → List SignedInput → Except SessionError Unit
  | i, r :: rs, s :: ss => do
    match verify r.proposition s.proof message (weights i) with
    | .ok _ => verifyFrom message weights (i + 1) rs ss
    | .error e => throw (.verification e)
  -- the lists have equal lengths once the unsigned parts are the same
  | _, _, _ => .ok ()

/-- Checks that a signed transaction is this one with a valid proof for every input; each proof has
weights of its own. -/
def verifySignedWith (r : ReducedTx) (signed : SignedTx) (weights : Nat → Nat → Suite.Scalar) :
    Except SessionError Unit :=
  if signed.unsigned != r.tx then .error (.verification .invalidProof)
  else verifyFrom r.tx.toBytes weights 0 r.inputs signed.inputs

/-- The same with one series of weights for all proofs. -/
def verifySigned (r : ReducedTx) (signed : SignedTx) (weight : Nat → Suite.Scalar) :
    Except SessionError Unit :=
  r.verifySignedWith signed fun _ => weight

end ReducedTx

end Covenant

/-
  PARAMETERS — the prices and limits of a network.

  Parameters come from a document of named settings (`Document.parse?`).  A setting that is absent
  has its default; one that is present must be given once, as a number in the range of its field.
  Settings under other names are ignored.
-/
import Covenant.Text.Document

namespace Covenant

/-- Network parameters under which transactions are reduced. -/
structure Parameters where
  /-- Fee for storing an octet for one period. -/
  storageFeeFactor : UInt64
  /-- Least value of a box for each octet of its encoding. -/
  minValuePerByte : UInt64
  maxBlockSize : UInt64
  /-- Cost of each token entry of a box. -/
  tokenAccessCost : UInt64
  inputCost : UInt64
  dataInputCost : UInt64
  outputCost : UInt64
  /-- Ceiling of a block's cost, and so of a transaction's. -/
  maxBlockCost : UInt64
  softForkStartingHeight : Option UInt32
  softForkVotesCollected : Option UInt32
  blockVersion : UInt8
deriving DecidableEq

namespace Parameters

/-- The parameters that hold where nothing else is said. -/
def default : Parameters where
  storageFeeFactor := 1250000
  minValuePerByte := 360
  maxBlockSize := 524288
  tokenAccessCost := 100
  inputCost := 2000
  dataInputCost := 100
  outputCost := 100
  maxBlockCost := 1000000
  softForkStartingHeight := none
  softForkVotesCollected := none
  blockVersion := 3

/-- A setting as a natural number below `bound`: absent, present, or of the wrong kind. -/
def setting? (doc : Document) (bound : Nat) (name : String) : Option (Option Nat) :=
  match doc.values name with
  | [] => some none
  | [.integer n] => if 0 ≤ n ∧ n < bound then some (some n.toNat) else none
  | _ => none

/-- A 64-bit setting. -/
def amount? (doc : Document) (name : String) (otherwise : UInt64) : Option UInt64 := do
  return match ← setting? doc 0x10000000000000000 name with
    | none => otherwise
    | some n => UInt64.ofNat n

/-- A 32-bit setting without a default. -/
def optional? (doc : Document) (name : String) : Option (Option UInt32) := do
  return (← setting? doc 0x100000000 name).map UInt32.ofNat

/-- The parameters that a document's settings describe. -/
def ofDocument? (doc : Document) : Option Parameters := do
  let storageFeeFactor ← amount? doc "storage_fee_factor" default.storageFeeFactor
  let minValuePerByte ← amount? doc "min_value_per_byte" default.minValuePerByte
  let maxBlockSize ← amount? doc "max_block_size" default.maxBlockSize
  let tokenAccessCost ← amount? doc "token_access_cost" default.tokenAccessCost
  let inputCost ← amount? doc "input_cost" default.inputCost
  let dataInputCost ← amount? doc "data_input_cost" default.dataInputCost
  let outputCost ← amount? doc "output_cost" default.outputCost
  let maxBlockCost ← amount? doc "max_block_cost" default.maxBlockCost
  let softForkStartingHeight ← optional? doc "soft_fork_starting_height"
  let softForkVotesCollected ← optional? doc "soft_fork_votes_collected"
  let blockVersion ← setting? doc 256 "block_version"
  return {
    storageFeeFactor, minValuePerByte, maxBlockSize, tokenAccessCost, inputCost, dataInputCost,
    outputCost, maxBlockCost, softForkStartingHeight, softForkVotesCollected
    blockVersion := (blockVersion.map UInt8.ofNat).getD default.blockVersion }

/-- The parameters that a text describes; none when it is no document or a setting is wrong. -/
def ofText? (s : String) : Option Parameters := do ofDocument? (← Document.parse? s)

/-- A document that names every setting. -/
def documentation : String :=
  "
    storage_fee_factor = 1_250_000  # storage fee per byte per storage period
    min_value_per_byte = 360        # minimum value per byte of a box
    max_block_size = 524_288        # maximum block size in bytes
    token_access_cost = 100         # cost of accessing one token entry
    input_cost = 2_000              # cost per transaction input
    data_input_cost = 100           # cost per data input
    output_cost = 100               # cost per output
    max_block_cost = 1_000_000      # computation ceiling of a block
    soft_fork_starting_height = 0   # optional; height at which soft-fork voting began
    soft_fork_votes_collected = 0   # optional; votes collected for the soft fork
    block_version = 3               # protocol version of blocks
"

end Parameters

end Covenant

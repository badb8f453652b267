/-
  HEADER — what a chain says about its blocks.

  A `Header` belongs to a mined block, a `PreHeader` to the one being assembled; a `StateTree` is
  the digest of an authenticated tree together with the operations that may be proved against it.
  All three have encodings of fixed layout, field after field.
-/
import Covenant.Codec

namespace Covenant

/-- Length of a state digest: a root of 32 octets and the height of the tree. -/
abbrev StateDigest := Octets 33

/-- A signed number of 256 bits, in two's complement. -/
abbrev BigInt := BitVec 256

/-- The 32 big-endian octets of a 256-bit number. -/
def BigInt.encode (x : BigInt) : Octets 32 := Octets.ofNatBE 32 x.toNat

/-- Reads 32 big-endian octets. -/
def BigInt.decoder : Decoder BigInt := return BitVec.ofNat 256 (Bytes.ofBE (← Decoder.octets 32).1)

/-! ## Authenticated trees -/

/-- The digest of an authenticated tree and the operations that proofs against it may perform. -/
structure StateTree where
  digest : StateDigest
  insertAllowed : Bool
  updateAllowed : Bool
  removeAllowed : Bool
  keyLength : UInt32
  /-- Length of every value, when all have the same. -/
  valueLength : Option UInt32
deriving DecidableEq

namespace StateTree

/-- The tree with a given digest that allows every operation. -/
def new (digest : StateDigest) (keyLength : UInt32) : StateTree :=
  ⟨digest, true, true, true, keyLength, none⟩

/-- The allowed operations as flag bits: insert, update, remove. -/
def flags (t : StateTree) : UInt8 :=
  (if t.insertAllowed then 1 else 0) ||| (if t.updateAllowed then 2 else 0)
    ||| (if t.removeAllowed then 4 else 0)

/-- The encoding. -/
def pieces (t : StateTree) : List Piece :=
  [.block "digest" t.digest, .u8 "flags" t.flags, .u32 "key_length" t.keyLength] ++
    match t.valueLength with
    | none => [.u8 "some" 0]
    | some n => [.u8 "some" 1, .u32 "value_length" n]

/-- Reads a number behind a flag that tells whether it is there. -/
def optionalLength : Decoder (Option UInt32) := do
  match ← Decoder.u8 with
  | 0 => return none
  | 1 => return some (← Decoder.u32)
  | _ => Decoder.malformed .optionFlag

/-- Reads a state tree. -/
def decoder : Decoder StateTree := do
  let digest ← Decoder.octets 33
  let flags ← Decoder.u8
  if flags &&& 0xf8 ≠ 0 then Decoder.malformed .stateTreeFlags
  let keyLength ← Decoder.u32
  let valueLength ← optionalLength
  return ⟨digest, flags &&& 1 ≠ 0, flags &&& 2 ≠ 0, flags &&& 4 ≠ 0, keyLength, valueLength⟩

end StateTree

/-! ## Headers -/

/-- Fields of the block being assembled, known before it is mined. -/
structure PreHeader where
  version : UInt8
  parentId : Octets 32
  timestamp : UInt64
  nBits : UInt64
  height : UInt32
  minerKey : PointName
  votes : Octets 3
deriving DecidableEq

/-- Header of a mined block. -/
structure Header where
  id : Octets 32
  version : UInt8
  parentId : Octets 32
  adProofsRoot : Octets 32
  stateRoot : StateTree
  transactionsRoot : Octets 32
  timestamp : UInt64
  nBits : UInt64
  height : UInt32
  extensionRoot : Octets 32
  minerKey : PointName
  powOnetimeKey : PointName
  powNonce : Octets 8
  powDistance : BigInt
  votes : Octets 3
deriving DecidableEq

namespace PreHeader

/-- The script version that a block of this version activates. -/
def activatedVersion (h : PreHeader) : UInt8 := if h.version = 0 then 0 else h.version - 1

/-- The encoding. -/
def pieces (h : PreHeader) : List Piece :=
  [.u8 "version" h.version, .block "parent_id" h.parentId, .u64 "timestamp" h.timestamp,
    .u64 "n_bits" h.nBits, .u32 "height" h.height, .block "miner_pk" h.minerKey,
    .block "votes" h.votes]

variable [Suite]

/-- Reads a pre-header. -/
def decoder : Decoder PreHeader := do
  let version ← Decoder.u8
  let parentId ← Decoder.octets 32
  let timestamp ← Decoder.u64
  let nBits ← Decoder.u64
  let height ← Decoder.u32
  let minerKey ← Decoder.point
  let votes ← Decoder.octets 3
  return ⟨version, parentId, timestamp, nBits, height, minerKey, votes⟩

end PreHeader

namespace Header

/-- The encoding. -/
def pieces (h : Header) : List Piece :=
  [.block "id" h.id, .u8 "version" h.version, .block "parent_id" h.parentId,
    .block "ad_proofs_root" h.adProofsRoot] ++ h.stateRoot.pieces ++
  [.block "transactions_root" h.transactionsRoot, .u64 "timestamp" h.timestamp,
    .u64 "n_bits" h.nBits, .u32 "height" h.height, .block "extension_root" h.extensionRoot,
    .block "miner_pk" h.minerKey, .block "pow_onetime_pk" h.powOnetimeKey,
    .block "pow_nonce" h.powNonce, .block "pow_distance" (BigInt.encode h.powDistance),
    .block "votes" h.votes]

variable [Suite]

/-- Reads a header. -/
def decoder : Decoder Header := do
  let id ← Decoder.octets 32
  let version ← Decoder.u8
  let parentId ← Decoder.octets 32
  let adProofsRoot ← Decoder.octets 32
  let stateRoot ← StateTree.decoder
  let transactionsRoot ← Decoder.octets 32
  let timestamp ← Decoder.u64
  let nBits ← Decoder.u64
  let height ← Decoder.u32
  let extensionRoot ← Decoder.octets 32
  let minerKey ← Decoder.point
  let powOnetimeKey ← Decoder.point
  let powNonce ← Decoder.octets 8
  let powDistance ← BigInt.decoder
  let votes ← Decoder.octets 3
  return ⟨id, version, parentId, adProofsRoot, stateRoot, transactionsRoot, timestamp, nBits,
    height, extensionRoot, minerKey, powOnetimeKey, powNonce, powDistance, votes⟩

end Header

end Covenant

/-
  CODEC — reading encodings.

  A `Decoder α` consumes octets from the front of its input and either yields a value with the rest
  of the input, or stops with the cause of the failure.  `exactly` runs one over a whole string and
  refuses leftovers.

  Sizes are four octets; `replicate n` runs a decoder `n` times and stops at the first failure, so a
  claimed count costs nothing beyond the input that is really there.
-/
import Covenant.Suite

namespace Covenant

/-! ## Why decoding fails -/

/-- A malformation that is none of the more specific kinds of `CodecError`. -/
inductive FormatDefect
  | addressChecksum | addressText | booleanFlag | conditionText | defaultFlag | duplicateVariable
  | expressionTooDeep | idText | idLength | notReduced | optionFlag | outputIndex | proofText
  | propositionTooDeep | reducedText | registerIndex | reservedHeaderBits | scriptHashLength
  | scriptVersion | tooManyChildren | tooManyOutputs | tooManyRegisters | tooManyTokens
  | proofsDoNotMatch | treeSize | tupleTooLong | tupleTooShort | typeTooDeep | addressKind
  | headerField | networkCode | opcode | preHeaderField | propositionTag | stateTreeField
  | stateTreeFlags | typeCode | unsignedWithProofs | valueText | versionedWithoutSize
  | reducedCount | reducedExtension
deriving DecidableEq, Repr

/-- The wording of a malformation. -/
def FormatDefect.text : FormatDefect → String
  | addressChecksum => "address checksum mismatch"
  | addressText => "address is not valid base58"
  | booleanFlag => "boolean must be 0 or 1"
  | conditionText => "condition is not valid hex"
  | defaultFlag => "default flag must be 0 or 1"
  | duplicateVariable => "duplicate context variable"
  | expressionTooDeep => "expression nested too deeply"
  | idText => "id is not valid hex"
  | idLength => "id must be 32 bytes"
  | notReduced => "not a reduced transaction"
  | optionFlag => "option flag must be 0 or 1"
  | outputIndex => "output index out of range"
  | proofText => "proof is not valid hex"
  | propositionTooDeep => "proposition nested too deeply"
  | reducedText => "reduced transaction is not valid hex"
  | registerIndex => "register index out of range"
  | reservedHeaderBits => "reserved header bits are set"
  | scriptHashLength => "script hash must be 24 bytes"
  | scriptVersion => "script version not supported"
  | tooManyChildren => "too many children"
  | tooManyOutputs => "too many outputs"
  | tooManyRegisters => "too many registers"
  | tooManyTokens => "too many tokens"
  | proofsDoNotMatch => "transaction proofs do not match its inputs"
  | treeSize => "tree size does not match its body"
  | tupleTooLong => "tuple has too many items"
  | tupleTooShort => "tuple must have at least two items"
  | typeTooDeep => "type nested too deeply"
  | addressKind => "unknown address type"
  | headerField => "unknown header field"
  | networkCode => "unknown network prefix"
  | opcode => "unknown opcode"
  | preHeaderField => "unknown pre-header field"
  | propositionTag => "unknown proposition tag"
  | stateTreeField => "unknown state tree field"
  | stateTreeFlags => "unknown state tree operation flags"
  | typeCode => "unknown type code"
  | unsignedWithProofs => "unsigned transaction carries proofs"
  | valueText => "value is not valid hex"
  | versionedWithoutSize => "versioned tree must carry its size"
  | reducedCount => "reduced input count does not match the transaction"
  | reducedExtension => "reduced input extension does not match the transaction"

/-- Why some octets are not the encoding of what they should be. -/
inductive CodecError
  /-- The input ended before the value was complete. -/
  | unexpectedEnd
  /-- Octets were left over after the value. -/
  | trailingBytes
  /-- A block encodes no group element. -/
  | invalidPoint
  /-- A block is no canonical scalar. -/
  | invalidScalar
  /-- An opcode that the encoding's version does not provide. -/
  | unsupportedOpcode (code : UInt8)
  /-- Any other malformation. -/
  | invalidFormat (defect : FormatDefect)
deriving DecidableEq, Repr

/-- The wording of a decoding failure. -/
def CodecError.message : CodecError → String
  | unexpectedEnd => "Unexpected end of input"
  | trailingBytes => "Trailing bytes after the encoded value"
  | invalidPoint => "Point decoding failed"
  | invalidScalar => "Scalar is not canonical"
  | unsupportedOpcode code =>
    "Opcode 0x" ++ Hex.encode [code] ++ " is not available in this version"
  | invalidFormat defect => "Invalid format: " ++ defect.text

/-! ## Decoders -/

/-- Takes a value off the front of some octets. -/
abbrev Decoder (α : Type) := StateT Bytes (Except CodecError) α

namespace Decoder

/-- Stops with a malformation. -/
def malformed {α : Type} (d : FormatDefect) : Decoder α := fun _ => .error (.invalidFormat d)

/-- The outcome of something that takes no octets. -/
def lift {α : Type} (r : Except CodecError α) : Decoder α := fun b => r.map fun x => (x, b)

/-- The next octet. -/
def u8 : Decoder UInt8
  | [] => .error .unexpectedEnd
  | b :: r => .ok (b, r)

/-- The next `n` octets. -/
def octets (n : Nat) : Decoder (Octets n) := fun b =>
  match Bytes.splitOctets n b with
  | none => .error .unexpectedEnd
  | some s => .ok s

/-- A little-endian number of `n` octets. -/
def number (n : Nat) : Decoder Nat := do
  let b ← octets n
  return Bytes.ofLE b.1

/-- A 16-bit number. -/
def u16 : Decoder UInt16 := return UInt16.ofNat (← number 2)

/-- A 32-bit number. -/
def u32 : Decoder UInt32 := return UInt32.ofNat (← number 4)

/-- A 64-bit number. -/
def u64 : Decoder UInt64 := return UInt64.ofNat (← number 8)

/-- A length or count. -/
def size : Decoder Nat := number 4

/-- How many octets are left. -/
def remaining : Decoder Nat := fun b => .ok (b.length, b)

/-- The next `n` octets as a string. -/
def take (n : Nat) : Decoder Bytes := fun b =>
  let front := b.take n
  if front.length = n then .ok (front, b.drop n) else .error .unexpectedEnd

/-- A byte string behind its length. -/
def string : Decoder Bytes := do take (← size)

/-- A count of items of at least one octet each: more than the octets left are refused. -/
def count : Decoder Nat := do
  let n ← size
  if (← remaining) < n then throw .unexpectedEnd
  return n

/-- Runs a decoder `n` times. -/
def replicate {α : Type} : Nat → Decoder α → Decoder (List α)
  | 0, _ => return []
  | n + 1, d => do
    let x ← d
    let xs ← replicate n d
    return x :: xs

/-- A block that encodes a group element. -/
def point [Suite] : Decoder PointName := do
  let b ← octets 32
  if (Suite.decompress b).isNone then throw .invalidPoint
  return b

/-- A canonical scalar. -/
def scalar [Suite] : Decoder Suite.Scalar := do
  match Suite.decodeScalar (← octets 32) with
  | none => throw .invalidScalar
  | some x => return x

/-- Runs a decoder over a whole byte string; nothing may be left. -/
def exactly {α : Type} (d : Decoder α) (b : Bytes) : Except CodecError α :=
  match d b with
  | .error e => .error e
  | .ok (x, []) => .ok x
  | .ok (_, _ :: _) => .error .trailingBytes

end Decoder

example : Decoder.u32.exactly [4, 3, 2, 1] = .ok 0x01020304 := rfl
example : Decoder.u8.exactly [1, 2] = .error .trailingBytes := rfl
example : Decoder.string.exactly [9, 0, 0, 0, 1] = .error .unexpectedEnd := rfl
example : (CodecError.unsupportedOpcode 0x69).message
    = "Opcode 0x69 is not available in this version" := by decide

end Covenant

/-
  FIELDS — reading the parts of headers, state trees and boxes as values.

  Octets of versions and flags are read as signed bytes.  Heights, times and amounts are unsigned in
  their records and signed as values: one that is too large has no value.
-/
import Covenant.Reduction.Arithmetic
import Covenant.Script.Encoding

namespace Covenant

/-- A field of a header. -/
def Header.read (h : Header) : HeaderField → Except ReductionError Value
  | .id => .ok (.bytes h.id.1)
  | .version => .ok (.byte h.version.toInt8)
  | .parentId => .ok (.bytes h.parentId.1)
  | .adProofsRoot => .ok (.bytes h.adProofsRoot.1)
  | .stateRoot => .ok (.stateTree h.stateRoot)
  | .transactionsRoot => .ok (.bytes h.transactionsRoot.1)
  | .timestamp => longOf h.timestamp.toNat
  | .nBits => longOf h.nBits.toNat
  | .height => intOf h.height.toNat
  | .extensionRoot => .ok (.bytes h.extensionRoot.1)
  | .minerKey => .ok (.groupElement h.minerKey)
  | .powOnetimeKey => .ok (.groupElement h.powOnetimeKey)
  | .powNonce => .ok (.bytes h.powNonce.1)
  | .powDistance => .ok (.bigInt h.powDistance)
  | .votes => .ok (.bytes h.votes.1)

/-- A field of a pre-header. -/
def PreHeader.read (h : PreHeader) : PreHeaderField → Except ReductionError Value
  | .version => .ok (.byte h.version.toInt8)
  | .parentId => .ok (.bytes h.parentId.1)
  | .timestamp => longOf h.timestamp.toNat
  | .nBits => longOf h.nBits.toNat
  | .height => intOf h.height.toNat
  | .minerKey => .ok (.groupElement h.minerKey)
  | .votes => .ok (.bytes h.votes.1)

/-- A field of a state tree. -/
def StateTree.read (t : StateTree) : StateTreeField → Except ReductionError Value
  | .digest => .ok (.bytes t.digest.1)
  | .enabledOperations => .ok (.byte t.flags.toInt8)
  | .keyLength => intOf t.keyLength.toNat
  | .valueLength =>
    match t.valueLength with
    | none => .ok (.option .int none)
    | some n => do return .option .int (some (← intOf n.toNat))

/-- A field of the record that a value holds. -/
def RecordField.read : RecordField → Value → Except ReductionError Value
  | .header f, .header h => h.read f
  | .header _, _ => .error (.malformedCondition .notAHeader)
  | .preHeader f, .preHeader h => h.read f
  | .preHeader _, _ => .error (.malformedCondition .notAPreHeader)
  | .stateTree f, .stateTree t => t.read f
  | .stateTree _, _ => .error (.malformedCondition .notAStateTree)

/-- The type of a token as a value. -/
def Token.valueType : ValueType := .tuple [.bytes, .long]

/-- A token as a pair of its id and its amount. -/
def Token.toValue (t : Token) : Except ReductionError Value := do
  return .pair (.bytes t.id.1) (← longOf t.amount.toNat)

/-- A value read where its type is known: absent, of this type, or a defect. -/
def readTyped (defect : ConditionDefect) (t : ValueType) :
    Option Value → Except ReductionError Value
  | none => .ok (.option t none)
  | some v => if v.type = t then .ok (.option t (some v)) else .error (.malformedCondition defect)

end Covenant

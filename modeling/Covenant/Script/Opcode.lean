/-
  OPCODE — the operations of the condition language.

  Operations come in families that share a syntax: plain operations on one operand, on two, on
  three, on any number, loops over a collection, and readers of a field.  `Opcode` lists the
  families; `code`, `since` and `cost` give the octet of each operation, the script version that
  introduced it, and what evaluating one node charges.  `all` holds every opcode in the order of
  their octets.
-/
namespace Covenant

/-! ## Fields -/

/-- Fields of the execution context that need no operand. -/
inductive ContextField
  | height | selfBox | inputs | outputs | dataInputs | headers | preHeader | minerKey | stateDigest
deriving DecidableEq, Repr

/-- Fields of a box. -/
inductive BoxField
  | value | scriptBytes | id | creationHeight | tokens
deriving DecidableEq, Repr

/-- Fields of a block header. -/
inductive HeaderField
  | id | version | parentId | adProofsRoot | stateRoot | transactionsRoot | timestamp | nBits
  | height | extensionRoot | minerKey | powOnetimeKey | powNonce | powDistance | votes
deriving DecidableEq, Repr

/-- Fields of a pre-header. -/
inductive PreHeaderField
  | version | parentId | timestamp | nBits | height | minerKey | votes
deriving DecidableEq, Repr

/-- Fields of an authenticated state tree. -/
inductive StateTreeField
  | digest | enabledOperations | keyLength | valueLength
deriving DecidableEq, Repr

namespace HeaderField

/-- The fields by their code, from zero. -/
def all : List HeaderField :=
  [id, version, parentId, adProofsRoot, stateRoot, transactionsRoot, timestamp, nBits, height,
    extensionRoot, minerKey, powOnetimeKey, powNonce, powDistance, votes]

/-- The code of a field. -/
def code (f : HeaderField) : UInt8 := UInt8.ofNat (all.idxOf f)

/-- The field with a given code. -/
def ofCode? (c : UInt8) : Option HeaderField := all[c.toNat]?

end HeaderField

namespace PreHeaderField

/-- The fields by their code, from zero. -/
def all : List PreHeaderField := [version, parentId, timestamp, nBits, height, minerKey, votes]

/-- The code of a field. -/
def code (f : PreHeaderField) : UInt8 := UInt8.ofNat (all.idxOf f)

/-- The field with a given code. -/
def ofCode? (c : UInt8) : Option PreHeaderField := all[c.toNat]?

end PreHeaderField

namespace StateTreeField

/-- The fields by their code, from zero. -/
def all : List StateTreeField := [digest, enabledOperations, keyLength, valueLength]

/-- The code of a field. -/
def code (f : StateTreeField) : UInt8 := UInt8.ofNat (all.idxOf f)

/-- The field with a given code. -/
def ofCode? (c : UInt8) : Option StateTreeField := all[c.toNat]?

end StateTreeField

/-- A field of one of the records that are read by field code. -/
inductive RecordField
  | header (f : HeaderField)
  | preHeader (f : PreHeaderField)
  | stateTree (f : StateTreeField)
deriving DecidableEq, Repr

/-! ## Families of operations -/

/-- Arithmetic on two numbers of one type. -/
inductive ArithOp
  | plus | minus | multiply | division | modulo | min | max
deriving DecidableEq, Repr

/-- Comparison of two values of one type. -/
inductive CompareOp
  | lt | le | gt | ge | eq | neq
deriving DecidableEq, Repr

/-- Operations on one operand. -/
inductive UnaryOp
  | extract (f : BoxField)
  | negate | toBigInt | not | allOf | anyOf | sizeOf | optionGet | optionIsDefined | sha256 | blake3
  | proveDlog | boolToSigma
deriving DecidableEq, Repr

/-- Operations on two operands. -/
inductive BinaryOp
  | arith (op : ArithOp)
  | compare (op : CompareOp)
  | and | or | optionGetOrElse | atLeast
deriving DecidableEq, Repr

/-- Operations on three operands. -/
inductive TernaryOp
  | ifThenElse | slice
deriving DecidableEq, Repr

/-- Operations on any number of operands. -/
inductive VariadicOp
  | tuple | sigmaAnd | sigmaOr
deriving DecidableEq, Repr

/-- Loops that apply a function to each item of a collection. -/
inductive LoopOp
  | map | filter | exists | forAll
deriving DecidableEq, Repr

/-- The records whose fields are read by field code. -/
inductive RecordKind
  | header | preHeader | stateTree
deriving DecidableEq, Repr

/-- The record a field belongs to. -/
def RecordField.kind : RecordField → RecordKind
  | header _ => .header
  | preHeader _ => .preHeader
  | stateTree _ => .stateTree

/-- The code of a field within its record. -/
def RecordField.code : RecordField → UInt8
  | header f => f.code
  | preHeader f => f.code
  | stateTree f => f.code

/-- The kind of a node. -/
inductive Opcode
  | const | placeholder | use | block
  | variadic (op : VariadicOp)
  | collOf
  | context (f : ContextField)
  | getVar
  | unary (op : UnaryOp)
  | register
  | record (k : RecordKind)
  | binary (op : BinaryOp)
  | ternary (op : TernaryOp)
  | byIndex
  | loop (op : LoopOp)
  | fold | selectField | dhTuple | deserialize
deriving DecidableEq, Repr

namespace Opcode

/-- What is known about an operation. -/
structure Info where
  /-- The name under which it is documented. -/
  name : String
  /-- The octet that stands for it. -/
  code : UInt8
  /-- The script version that introduced it. -/
  since : UInt8
  /-- What evaluating one node charges. -/
  cost : Nat

/-- The facts about every operation. -/
def info : Opcode → Info
  | const => ⟨"Const", 0x01, 0, 1⟩
  | placeholder => ⟨"ConstPlaceholder", 0x02, 0, 1⟩
  | use => ⟨"ValUse", 0x03, 0, 1⟩
  | block => ⟨"BlockValue", 0x04, 0, 2⟩
  | variadic .tuple => ⟨"Tuple", 0x06, 0, 2⟩
  | collOf => ⟨"CollOf", 0x07, 0, 2⟩
  | context .height => ⟨"Height", 0x10, 0, 5⟩
  | context .selfBox => ⟨"SelfBox", 0x11, 0, 5⟩
  | context .inputs => ⟨"Inputs", 0x12, 0, 5⟩
  | context .outputs => ⟨"Outputs", 0x13, 0, 5⟩
  | context .dataInputs => ⟨"DataInputs", 0x14, 0, 5⟩
  | context .headers => ⟨"Headers", 0x15, 0, 5⟩
  | context .preHeader => ⟨"PreHeader", 0x16, 0, 5⟩
  | context .minerKey => ⟨"MinerPubKey", 0x17, 0, 5⟩
  | context .stateDigest => ⟨"LastBlockUtxoRoot", 0x18, 0, 5⟩
  | getVar => ⟨"GetVar", 0x19, 0, 10⟩
  | unary (.extract .value) => ⟨"ExtractAmount", 0x20, 0, 10⟩
  | unary (.extract .scriptBytes) => ⟨"ExtractScriptBytes", 0x21, 0, 10⟩
  | unary (.extract .id) => ⟨"ExtractId", 0x22, 0, 10⟩
  | unary (.extract .creationHeight) => ⟨"ExtractCreationHeight", 0x23, 0, 10⟩
  | unary (.extract .tokens) => ⟨"ExtractTokens", 0x24, 0, 10⟩
  | register => ⟨"ExtractRegister", 0x25, 0, 15⟩
  | record .header => ⟨"HeaderField", 0x26, 0, 10⟩
  | record .preHeader => ⟨"PreHeaderField", 0x27, 0, 10⟩
  | record .stateTree => ⟨"AvlTreeField", 0x28, 1, 10⟩
  | binary (.arith .plus) => ⟨"Plus", 0x30, 0, 15⟩
  | binary (.arith .minus) => ⟨"Minus", 0x31, 0, 15⟩
  | binary (.arith .multiply) => ⟨"Multiply", 0x32, 0, 20⟩
  | binary (.arith .division) => ⟨"Division", 0x33, 0, 20⟩
  | binary (.arith .modulo) => ⟨"Modulo", 0x34, 0, 20⟩
  | binary (.arith .min) => ⟨"Min", 0x35, 0, 15⟩
  | binary (.arith .max) => ⟨"Max", 0x36, 0, 15⟩
  | unary .negate => ⟨"Negation", 0x37, 0, 15⟩
  | unary .toBigInt => ⟨"ToBigInt", 0x38, 0, 15⟩
  | binary (.compare .lt) => ⟨"Lt", 0x40, 0, 15⟩
  | binary (.compare .le) => ⟨"Le", 0x41, 0, 15⟩
  | binary (.compare .gt) => ⟨"Gt", 0x42, 0, 15⟩
  | binary (.compare .ge) => ⟨"Ge", 0x43, 0, 15⟩
  | binary (.compare .eq) => ⟨"Eq", 0x44, 0, 20⟩
  | binary (.compare .neq) => ⟨"Neq", 0x45, 0, 20⟩
  | binary .and => ⟨"BinAnd", 0x48, 0, 10⟩
  | binary .or => ⟨"BinOr", 0x49, 0, 10⟩
  | unary .not => ⟨"Not", 0x4a, 0, 10⟩
  | ternary .ifThenElse => ⟨"If", 0x4b, 0, 10⟩
  | unary .allOf => ⟨"AllOf", 0x4c, 0, 10⟩
  | unary .anyOf => ⟨"AnyOf", 0x4d, 0, 10⟩
  | unary .sizeOf => ⟨"SizeOf", 0x50, 0, 10⟩
  | byIndex => ⟨"ByIndex", 0x51, 0, 10⟩
  | ternary .slice => ⟨"Slice", 0x52, 0, 10⟩
  | loop .map => ⟨"Map", 0x53, 0, 20⟩
  | loop .filter => ⟨"Filter", 0x54, 1, 20⟩
  | loop .exists => ⟨"Exists", 0x55, 0, 20⟩
  | loop .forAll => ⟨"ForAll", 0x56, 0, 20⟩
  | fold => ⟨"Fold", 0x57, 1, 20⟩
  | selectField => ⟨"SelectField", 0x58, 0, 10⟩
  | unary .optionGet => ⟨"OptionGet", 0x60, 0, 10⟩
  | unary .optionIsDefined => ⟨"OptionIsDefined", 0x61, 0, 10⟩
  | binary .optionGetOrElse => ⟨"OptionGetOrElse", 0x62, 0, 10⟩
  | unary .sha256 => ⟨"Sha256", 0x68, 0, 20⟩
  | unary .blake3 => ⟨"Blake3", 0x69, 2, 20⟩
  | unary .proveDlog => ⟨"ProveDlog", 0x70, 0, 10⟩
  | dhTuple => ⟨"ProveDhTuple", 0x71, 0, 10⟩
  | variadic .sigmaAnd => ⟨"SigmaAnd", 0x72, 0, 10⟩
  | variadic .sigmaOr => ⟨"SigmaOr", 0x73, 0, 10⟩
  | binary .atLeast => ⟨"AtLeast", 0x74, 0, 10⟩
  | unary .boolToSigma => ⟨"BoolToSigma", 0x75, 0, 10⟩
  | deserialize => ⟨"DeserializeContext", 0x78, 1, 50⟩

/-- The octet that stands for an operation. -/
def code (op : Opcode) : UInt8 := op.info.code

/-- The script version that introduced an operation. -/
def since (op : Opcode) : UInt8 := op.info.since

/-- What evaluating one node charges. -/
def cost (op : Opcode) : Nat := op.info.cost

/-- Every opcode, in the order of their codes. -/
def all : List Opcode :=
  [const, placeholder, use, block, variadic .tuple, collOf,
    context .height, context .selfBox, context .inputs, context .outputs, context .dataInputs,
    context .headers, context .preHeader, context .minerKey, context .stateDigest, getVar,
    unary (.extract .value), unary (.extract .scriptBytes), unary (.extract .id),
    unary (.extract .creationHeight), unary (.extract .tokens), register,
    record .header, record .preHeader, record .stateTree,
    binary (.arith .plus), binary (.arith .minus), binary (.arith .multiply),
    binary (.arith .division), binary (.arith .modulo), binary (.arith .min), binary (.arith .max),
    unary .negate, unary .toBigInt,
    binary (.compare .lt), binary (.compare .le), binary (.compare .gt), binary (.compare .ge),
    binary (.compare .eq), binary (.compare .neq),
    binary .and, binary .or, unary .not, ternary .ifThenElse, unary .allOf, unary .anyOf,
    unary .sizeOf, byIndex, ternary .slice, loop .map, loop .filter, loop .exists, loop .forAll,
    fold, selectField, unary .optionGet, unary .optionIsDefined, binary .optionGetOrElse,
    unary .sha256, unary .blake3, unary .proveDlog, dhTuple, variadic .sigmaAnd, variadic .sigmaOr,
    binary .atLeast, unary .boolToSigma, deserialize]

/-- The operation with a given code. -/
def ofCode? (c : UInt8) : Option Opcode := all.find? fun op => op.code == c

/-- The code of an operation names it and no other. -/
theorem ofCode?_code (op : Opcode) : ofCode? op.code = some op := by
  cases op with
  | variadic op => cases op <;> rfl
  | context f => cases f <;> rfl
  | unary op =>
    cases op with
    | extract f => cases f <;> rfl
    | _ => rfl
  | record k => cases k <;> rfl
  | binary op =>
    cases op with
    | arith op => cases op <;> rfl
    | compare op => cases op <;> rfl
    | _ => rfl
  | ternary op => cases op <;> rfl
  | loop op => cases op <;> rfl
  | _ => rfl

/-- Codes increase along the list of all opcodes. -/
theorem all_sorted : (all.map fun op => op.code.toNat).Pairwise (· < ·) := by decide

end Opcode

end Covenant

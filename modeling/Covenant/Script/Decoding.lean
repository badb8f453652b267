/-
  DECODING — reading values, expressions, conditions and boxes.

  Every reader is told how to read what it contains: `Value.dataDecoder` how to read a box,
  `Expr.nodeDecoder` how to read sub-expressions, and so on.  Depth limits close the loop for types,
  propositions and expressions.  Boxes inside boxes have no limit of their own, but each level uses
  up input, so the length of the input bounds their nesting: `Box.decoderWithin` counts levels, and
  `Box.decoder` starts it with more of them than there are octets.

  An expression may only use operations of its version.  A condition that carries its own length and
  cannot be read is kept as it is.
-/
import Covenant.Script.Encoding

namespace Covenant

/-- The newest script version that can be read. -/
def maxScriptVersion : UInt8 := 2

/-- Deepest nesting of expressions; the root is at depth zero. -/
def maxExprDepth : Nat := 40

/-- Most tokens of a box. -/
def maxTokens : Nat := 255

/-- Number of registers of a box beyond the fixed ones. -/
def maxRegisters : Nat := 6

variable [Suite]

/-! ## Values -/

/-- Reads an octet that is zero or one. -/
def flagDecoder (defect : FormatDefect) : Decoder Bool := do
  match ← Decoder.u8 with
  | 0 => return false
  | 1 => return true
  | _ => Decoder.malformed defect

/-- Reads a value of an atomic type, given how a box is read. -/
def AtomType.dataDecoder (box : Decoder Box) : AtomType → Decoder Value
  | .bool => return .bool (← flagDecoder .booleanFlag)
  | .byte => return .byte (← Decoder.u8).toInt8
  | .short => return .short (← Decoder.u16).toInt16
  | .int => return .int (← Decoder.u32).toInt32
  | .long => return .long (← Decoder.u64).toInt64
  | .bigInt => return .bigInt (← BigInt.decoder)
  | .groupElement => return .groupElement (← Decoder.point)
  | .sigmaProp => return .sigmaProp (← Proposition.decoder)
  | .box => return .box (← box)
  | .stateTree => return .stateTree (← StateTree.decoder)
  | .header => return .header (← Header.decoder)
  | .preHeader => return .preHeader (← PreHeader.decoder)

mutual

/-- Reads a value of a given type, given how a box is read. -/
def ValueType.dataDecoder (box : Decoder Box) : ValueType → Decoder Value
  | .atom a => a.dataDecoder box
  | .coll t =>
    if t = .byte then return .bytes (← Decoder.string)
    else do
      let n ← Decoder.count
      return .seq t (← Decoder.replicate n (t.dataDecoder box))
  | .tuple ts => return .tuple (← ValueType.dataDecoderAll box ts)
  | .option t => do
    if ← flagDecoder .optionFlag then return .option t (some (← t.dataDecoder box))
    else return .option t none

/-- Reads one value of each type. -/
def ValueType.dataDecoderAll (box : Decoder Box) : List ValueType → Decoder (List Value)
  | [] => return []
  | t :: ts => do
    let v ← t.dataDecoder box
    let vs ← ValueType.dataDecoderAll box ts
    return v :: vs

end

/-- Reads a value behind its type, given how a box is read. -/
def Value.decoderWith (box : Decoder Box) : Decoder Value := do
  let t ← ValueType.decoder
  t.dataDecoder box

/-! ## Expressions -/

/-- Reads an argument of a function. -/
def Signature.argDecoder : Decoder (UInt32 × ValueType) := do
  let id ← Decoder.u32
  let t ← ValueType.decoder
  return (id, t)

/-- Reads the arguments and the result type of a function. -/
def Signature.decoder : Decoder Signature := do
  let n ← Decoder.count
  let args ← Decoder.replicate n argDecoder
  let result ← ValueType.decoder
  return ⟨args, result⟩

/-- Reads the field of a record by its code. -/
def RecordKind.fieldDecoder (k : RecordKind) : Decoder RecordField := do
  let c ← Decoder.u8
  match k with
  | .header =>
    match HeaderField.ofCode? c with
    | none => Decoder.malformed .headerField
    | some f => return .header f
  | .preHeader =>
    match PreHeaderField.ofCode? c with
    | none => Decoder.malformed .preHeaderField
    | some f => return .preHeader f
  | .stateTree =>
    match StateTreeField.ofCode? c with
    | none => Decoder.malformed .stateTreeField
    | some f => return .stateTree f

namespace Expr

/-- Reads an opcode that a script version provides. -/
def opcodeDecoder (version : UInt8) : Decoder Opcode := do
  match Opcode.ofCode? (← Decoder.u8) with
  | none => Decoder.malformed .opcode
  | some op => if version < op.since then throw (.unsupportedOpcode op.code) else return op

/-- Reads a definition, given how its right-hand side is read. -/
def defDecoder (sub : Decoder Expr) : Decoder (UInt32 × Expr) := do
  let id ← Decoder.u32
  let e ← sub
  return (id, e)

/-- Reads a count and that many expressions. -/
def listDecoder (sub : Decoder Expr) : Decoder (List Expr) := do
  let n ← Decoder.count
  Decoder.replicate n sub

/-- Reads what follows an opcode, given how values, sub-expressions and function bodies are read. -/
def operandDecoder (value : Decoder Value) (sub body : Decoder Expr) : Opcode → Decoder Expr
  | .const => return .const (← value)
  | .placeholder => return .placeholder (← Decoder.u32)
  | .use => return .use (← Decoder.u32)
  | .block => do
    let n ← Decoder.count
    let ds ← Decoder.replicate n (defDecoder sub)
    return .block ds (← sub)
  | .variadic op => return .variadic op (← listDecoder sub)
  | .collOf => do
    let t ← ValueType.decoder
    return .collOf t (← listDecoder sub)
  | .context f => return .context f
  | .getVar => do
    let i ← Decoder.u8
    return .getVar i (← ValueType.decoder)
  | .unary op => return .unary op (← sub)
  | .register => do
    let e ← sub
    let i ← Decoder.u8
    -- what the lower numbers stand for has operations of its own
    if i < 4 ∨ 9 < i then Decoder.malformed .registerIndex
    return .register e i (← ValueType.decoder)
  | .record k => do
    let f ← k.fieldDecoder
    return .record f (← sub)
  | .binary op => do
    let a ← sub
    let b ← sub
    return .binary op a b
  | .ternary op => do
    let a ← sub
    let b ← sub
    let c ← sub
    return .ternary op a b c
  | .byIndex => do
    let c ← sub
    let i ← sub
    if ← flagDecoder .defaultFlag then return .byIndex c i (some (← sub))
    else return .byIndex c i none
  | .loop op => do
    let c ← sub
    let s ← Signature.decoder
    return .loop op c s (← body)
  | .fold => do
    let c ← sub
    let z ← sub
    let s ← Signature.decoder
    return .fold c z s (← body)
  | .selectField => do
    let e ← sub
    return .selectField e (← Decoder.u8)
  | .dhTuple => do
    let g ← sub
    let h ← sub
    let u ← sub
    let v ← sub
    return .dhTuple g h u v
  | .deserialize => do
    let i ← Decoder.u8
    return .deserialize i (← ValueType.decoder)

/-- Reads a node, given how values, sub-expressions and function bodies are read. -/
def nodeDecoder (value : Decoder Value) (version : UInt8) (sub body : Decoder Expr) :
    Decoder Expr := do
  let op ← opcodeDecoder version
  operandDecoder value sub body op

/-- Reads an expression of at most so many levels.  The body of a function counts as two levels
below the node it belongs to. -/
def decoderWithin (value : Decoder Value) (version : UInt8) : Nat → Decoder Expr
  | 0 => Decoder.malformed .expressionTooDeep
  | 1 => nodeDecoder value version (Decoder.malformed .expressionTooDeep)
      (Decoder.malformed .expressionTooDeep)
  | levels + 2 => nodeDecoder value version (decoderWithin value version (levels + 1))
      (decoderWithin value version levels)

omit [Suite] in
/-- A node takes one level from its operands and two from the bodies of functions. -/
theorem decoderWithin_succ (value : Decoder Value) (version : UInt8) (levels : Nat) :
    decoderWithin value version (levels + 1) = nodeDecoder value version
      (decoderWithin value version levels) (decoderWithin value version (levels - 1)) := by
  cases levels <;> rfl

omit [Suite] in
/-- Induction along the levels that operands and bodies have left. -/
theorem levels_induction {P : Nat → Prop} (tooDeep : P 0)
    (node : ∀ levels, P levels → P (levels - 1) → P (levels + 1)) (levels : Nat) : P levels := by
  induction levels using Nat.strongRecOn with
  | ind levels ih =>
    match levels with
    | 0 => exact tooDeep
    | levels + 1 =>
      exact node levels (ih levels (Nat.lt_succ_self _)) (ih (levels - 1) (by omega))

/-- Reads an expression of a script version, given how values are read. -/
def decoderWith (value : Decoder Value) (version : UInt8) : Decoder Expr :=
  decoderWithin value version (maxExprDepth + 1)

end Expr

/-! ## Conditions -/

namespace Condition

/-- Reads the table of constants, where the header announces one. -/
def constantsDecoder (value : Decoder Value) (header : UInt8) : Decoder (List Value) := do
  if header &&& constantsFlag ≠ 0 then
    let n ← Decoder.count
    Decoder.replicate n value
  else return []

/-- Reads the rest of a condition behind its header and length. -/
def bodyDecoder (value : Decoder Value) (header : UInt8) : Decoder Condition := do
  let version := header &&& versionMask
  if header &&& reservedBits ≠ 0 then Decoder.malformed .reservedHeaderBits
  if maxScriptVersion < version then Decoder.malformed .scriptVersion
  if 0 < version ∧ header &&& sizeFlag = 0 then Decoder.malformed .versionedWithoutSize
  let constants ← constantsDecoder value header
  let root ← Expr.decoderWith value version
  return .parsed header constants root

/-- Reads a length that must be that of the rest. -/
def sizeDecoder : Decoder Unit := do
  let n ← Decoder.size
  if n ≠ (← Decoder.remaining) then Decoder.malformed .treeSize

/-- Reads a condition from a whole byte string, given how values are read.  One that carries its
length is kept as it is when the rest cannot be read. -/
def ofBytesWith (value : Decoder Value) (b : Bytes) : Except CodecError Condition := do
  let (header, rest) ← Decoder.u8 b
  if header &&& sizeFlag ≠ 0 then
    let (_, body) ← sizeDecoder rest
    match (bodyDecoder value header).exactly body with
    | .ok c => return c
    -- its length is known to be right, so it can still be passed on
    | .error e => return .unparsed b e
  else (bodyDecoder value header).exactly rest

end Condition

/-! ## Boxes -/

/-- Reads an amount of a token. -/
def Token.decoder : Decoder Token := do
  let id ← Decoder.octets 32
  let amount ← Decoder.u64
  return ⟨id, amount⟩

/-- Reads an output, given how values are read. -/
def Candidate.decoderWith (value : Decoder Value) : Decoder Candidate := do
  let amount ← Decoder.u64
  let script ← Decoder.string
  let condition ← Decoder.lift (Condition.ofBytesWith value script)
  let height ← Decoder.u32
  let n ← Decoder.size
  if maxTokens < n then Decoder.malformed .tooManyTokens
  let tokens ← Decoder.replicate n Token.decoder
  let m ← Decoder.size
  if maxRegisters < m then Decoder.malformed .tooManyRegisters
  let registers ← Decoder.replicate m value
  return ⟨amount, condition, tokens, registers, height⟩

/-- Reads a box, given how values are read. -/
def Box.decoderWith (value : Decoder Value) : Decoder Box := do
  let candidate ← Candidate.decoderWith value
  let tx ← Decoder.octets 32
  let index ← Decoder.u32
  if 0xffff < index then Decoder.malformed .outputIndex
  return ⟨candidate, tx, index.toUInt16⟩

/-- Reads a box with boxes nested inside it to at most so many levels. -/
def Box.decoderWithin : Nat → Decoder Box
  | 0 => fun _ => .error .unexpectedEnd
  | levels + 1 => Box.decoderWith (Value.decoderWith (Box.decoderWithin levels))

/-! ## Readers that need nothing else -/

/-- Reads a box. -/
def Box.decoder : Decoder Box := fun b => Box.decoderWithin (b.length + 1) b

/-- Reads a value behind its type. -/
def Value.decoder : Decoder Value := fun b => Value.decoderWith (Box.decoderWithin (b.length + 1)) b

/-- Reads an expression of a script version. -/
def Expr.decoder (version : UInt8) : Decoder Expr := fun b =>
  Expr.decoderWith (Value.decoderWith (Box.decoderWithin (b.length + 1))) version b

/-- Reads an output. -/
def Candidate.decoder : Decoder Candidate := fun b =>
  Candidate.decoderWith (Value.decoderWith (Box.decoderWithin (b.length + 1))) b

/-- The condition with the given binary form. -/
def Condition.ofBytes (b : Bytes) : Except CodecError Condition :=
  Condition.ofBytesWith (Value.decoderWith (Box.decoderWithin (b.length + 1))) b

/-- The condition with the given hexadecimal form. -/
def Condition.ofHex (s : String) : Except CodecError Condition :=
  match Hex.decode s with
  | none => .error (.invalidFormat .conditionText)
  | some b => Condition.ofBytes b

/-- The value with the given hexadecimal form. -/
def Value.ofHex (s : String) : Except CodecError Value :=
  match Hex.decode s with
  | none => .error (.invalidFormat .valueText)
  | some b => Value.decoder.exactly b

end Covenant

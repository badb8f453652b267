/-
  ENCODING — values, expressions, conditions and boxes as labelled pieces.

  A value is written as its type followed by its data; the data alone is written where the type is
  known from elsewhere, as inside collections.  An expression is written in pre-order, each node
  behind its opcode.  A condition starts with a header octet: its low three bits are the script
  version, one flag says that the length of the rest follows, another that a table of constants
  does.
-/
import Covenant.Script.Value

namespace Covenant

/-! ## Parts -/

/-- The data of an atom. -/
def Atom.pieces : Atom → List Piece
  | .bool b => [.u8 "bool" (if b then 1 else 0)]
  | .byte x => [.u8 "byte" x.toUInt8]
  | .short x => [.u16 "short" x.toUInt16]
  | .int x => [.u32 "int" x.toUInt32]
  | .long x => [.u64 "long" x.toUInt64]
  | .bigInt x => [.block "bigint" (BigInt.encode x)]
  | .groupElement y => [.block "point" y]
  | .sigmaProp p => p.pieces
  | .stateTree t => t.pieces
  | .header h => h.pieces
  | .preHeader h => h.pieces

/-- The encoding of an amount. -/
def Token.pieces (t : Token) : List Piece := [.block "token_id" t.id, .u64 "amount" t.amount]

/-- The encoding of a function's arguments and result. -/
def Signature.pieces (s : Signature) : List Piece :=
  .size "n" s.args.length :: s.args.flatMap (fun a => .u32 "id" a.1 :: a.2.pieces)
    ++ s.result.pieces

/-- The opcode of a node. -/
def Expr.opcode : Expr → Opcode
  | .const _ => .const
  | .placeholder _ => .placeholder
  | .use _ => .use
  | .block _ _ => .block
  | .variadic op _ => .variadic op
  | .collOf _ _ => .collOf
  | .context f => .context f
  | .getVar _ _ => .getVar
  | .unary op _ => .unary op
  | .register _ _ _ => .register
  | .record f _ => .record f.kind
  | .binary op _ _ => .binary op
  | .ternary op _ _ _ => .ternary op
  | .byIndex _ _ _ => .byIndex
  | .loop op _ _ _ => .loop op
  | .fold _ _ _ _ => .fold
  | .selectField _ _ => .selectField
  | .dhTuple _ _ _ _ => .dhTuple
  | .deserialize _ _ => .deserialize

namespace Condition

/-- Bits of the header that hold the script version. -/
def versionMask : UInt8 := 0x07

/-- Set when the length of the body is written. -/
def sizeFlag : UInt8 := 0x08

/-- Set when a table of constants is written. -/
def constantsFlag : UInt8 := 0x10

/-- Bits that must not be set. -/
def reservedBits : UInt8 := 0xe0

end Condition

/-! ## The family -/

mutual

/-- The data of a value, without its type. -/
def Value.dataPieces : Value → List Piece
  | .atom a => a.pieces
  | .box b => b.pieces
  | .bytes b => Piece.string "bytes" b
  | .seq _ vs => .size "n" vs.length :: Value.dataPiecesAll vs
  | .tuple vs => Value.dataPiecesAll vs
  | .option _ none => [.u8 "some" 0]
  | .option _ (some v) => .u8 "some" 1 :: v.dataPieces

/-- The data of some values one after the other. -/
def Value.dataPiecesAll : List Value → List Piece
  | [] => []
  | v :: vs => v.dataPieces ++ Value.dataPiecesAll vs

/-- Some values with their types one after the other. -/
def Value.piecesAll : List Value → List Piece
  | [] => []
  | v :: vs => v.type.pieces ++ v.dataPieces ++ Value.piecesAll vs

/-- The encoding of an expression. -/
def Expr.pieces : Expr → List Piece
  | .const v => .u8 "op" Opcode.const.code :: (v.type.pieces ++ v.dataPieces)
  | .placeholder i => [.u8 "op" Opcode.placeholder.code, .u32 "index" i]
  | .use i => [.u8 "op" Opcode.use.code, .u32 "id" i]
  | .block ds e =>
    .u8 "op" Opcode.block.code :: .size "n" ds.length :: (Expr.piecesDefs ds ++ e.pieces)
  | .variadic op es =>
    .u8 "op" (Opcode.variadic op).code :: .size "n" es.length :: Expr.piecesAll es
  | .collOf t es =>
    .u8 "op" Opcode.collOf.code :: (t.pieces ++ .size "n" es.length :: Expr.piecesAll es)
  | .context f => [.u8 "op" (Opcode.context f).code]
  | .getVar i t => .u8 "op" Opcode.getVar.code :: .u8 "id" i :: t.pieces
  | .unary op e => .u8 "op" (Opcode.unary op).code :: e.pieces
  | .register e i t => .u8 "op" Opcode.register.code :: (e.pieces ++ .u8 "reg" i :: t.pieces)
  | .record f e => .u8 "op" (Opcode.record f.kind).code :: .u8 "field" f.code :: e.pieces
  | .binary op a b => .u8 "op" (Opcode.binary op).code :: (a.pieces ++ b.pieces)
  | .ternary op a b c => .u8 "op" (Opcode.ternary op).code :: (a.pieces ++ b.pieces ++ c.pieces)
  | .byIndex c i none => .u8 "op" Opcode.byIndex.code :: (c.pieces ++ i.pieces ++ [.u8 "default" 0])
  | .byIndex c i (some d) =>
    .u8 "op" Opcode.byIndex.code :: (c.pieces ++ i.pieces ++ .u8 "default" 1 :: d.pieces)
  | .loop op c s b => .u8 "op" (Opcode.loop op).code :: (c.pieces ++ s.pieces ++ b.pieces)
  | .fold c z s b => .u8 "op" Opcode.fold.code :: (c.pieces ++ z.pieces ++ s.pieces ++ b.pieces)
  | .selectField e i => .u8 "op" Opcode.selectField.code :: (e.pieces ++ [.u8 "field" i])
  | .dhTuple g h u v =>
    .u8 "op" Opcode.dhTuple.code :: (g.pieces ++ h.pieces ++ u.pieces ++ v.pieces)
  | .deserialize i t => .u8 "op" Opcode.deserialize.code :: .u8 "id" i :: t.pieces

/-- The encodings of some expressions one after the other. -/
def Expr.piecesAll : List Expr → List Piece
  | [] => []
  | e :: es => e.pieces ++ Expr.piecesAll es

/-- Definitions one after the other, each behind the variable it binds. -/
def Expr.piecesDefs : List (UInt32 × Expr) → List Piece
  | [] => []
  | (i, e) :: ds => .u32 "id" i :: (e.pieces ++ Expr.piecesDefs ds)

/-- The encoding of a condition. -/
def Condition.pieces : Condition → List Piece
  | .unparsed b _ => [⟨"tree", b⟩]
  | .parsed header cs root =>
    let constants :=
      if header &&& Condition.constantsFlag ≠ 0 then .size "n" cs.length :: Value.piecesAll cs
      else []
    let body := constants ++ root.pieces
    .u8 "header" header ::
      if header &&& Condition.sizeFlag ≠ 0 then Piece.string "body" (Piece.join body) else body

/-- The encoding of an output. -/
def Candidate.pieces : Candidate → List Piece
  | ⟨value, condition, tokens, registers, height⟩ =>
    .u64 "value" value :: Piece.string "condition" (Piece.join condition.pieces) ++
    [.u32 "creation_height" height, .size "tokens" tokens.length] ++ tokens.flatMap Token.pieces ++
    .size "registers" registers.length :: Value.piecesAll registers

/-- The encoding of a box. -/
def Box.pieces : Box → List Piece
  | ⟨candidate, tx, index⟩ =>
    candidate.pieces ++ [.block "tx_id" tx, .u32 "index" index.toUInt32]

end

/-! ## Binary forms -/

/-- The encoding of a value with its type. -/
def Value.pieces (v : Value) : List Piece := v.type.pieces ++ v.dataPieces

/-- The binary form of a value. -/
def Value.toBytes (v : Value) : Bytes := Piece.join v.pieces

/-- The binary form of an expression. -/
def Expr.toBytes (e : Expr) : Bytes := Piece.join e.pieces

/-- The binary form of a condition. -/
def Condition.toBytes (c : Condition) : Bytes := Piece.join c.pieces

/-- The binary form of an output. -/
def Candidate.toBytes (c : Candidate) : Bytes := Piece.join c.pieces

/-- The binary form of a box. -/
def Box.toBytes (b : Box) : Bytes := Piece.join b.pieces

/-- The id of a box: the hash of its binary form. -/
def Box.id [Suite] (b : Box) : BoxId := domainHash "box" b.toBytes

end Covenant

/-
  VALUE TYPE — the types of the condition language.

  Twelve atoms, and collections, options and tuples of types.  In an encoding every type starts with
  its code; nesting below the root is limited to `maxTypeDepth` levels and tuples have between two
  and `maxTupleArity` items.
-/
import Covenant.Codec

namespace Covenant

/-- Types without parts. -/
inductive AtomType
  | bool | byte | short | int | long | bigInt | groupElement | sigmaProp | box | stateTree | header
  | preHeader
deriving DecidableEq, Repr

/-- The type of a value or expression. -/
inductive ValueType
  | atom (a : AtomType)
  | coll (item : ValueType)
  | tuple (items : List ValueType)
  | option (item : ValueType)

/-- Deepest nesting of a type below the root of an encoding. -/
def maxTypeDepth : Nat := 32

/-- Most items of a tuple. -/
def maxTupleArity : Nat := 255

/-! ## Atoms -/

namespace AtomType

/-- Every atom. -/
def all : List AtomType :=
  [bool, byte, short, int, long, bigInt, groupElement, sigmaProp, box, stateTree, header, preHeader]

/-- The code of an atom. -/
def code : AtomType → UInt8
  | bool => 0x01
  | byte => 0x02
  | short => 0x03
  | int => 0x04
  | long => 0x05
  | bigInt => 0x06
  | groupElement => 0x07
  | sigmaProp => 0x08
  | box => 0x63
  | stateTree => 0x64
  | header => 0x68
  | preHeader => 0x69

/-- The atom with a given code. -/
def ofCode? (c : UInt8) : Option AtomType := all.find? fun a => a.code == c

theorem mem_all (a : AtomType) : a ∈ all := by cases a <;> decide

/-- The code of an atom names it and no other. -/
theorem ofCode?_code (a : AtomType) : ofCode? a.code = some a := by cases a <;> decide

/-- The name of an atom. -/
def name : AtomType → String
  | bool => "Boolean"
  | byte => "Byte"
  | short => "Short"
  | int => "Int"
  | long => "Long"
  | bigInt => "BigInt"
  | groupElement => "GroupElement"
  | sigmaProp => "SigmaProp"
  | box => "Box"
  | stateTree => "AvlTree"
  | header => "Header"
  | preHeader => "PreHeader"

end AtomType

namespace ValueType

@[match_pattern] abbrev bool : ValueType := .atom .bool
@[match_pattern] abbrev byte : ValueType := .atom .byte
@[match_pattern] abbrev short : ValueType := .atom .short
@[match_pattern] abbrev int : ValueType := .atom .int
@[match_pattern] abbrev long : ValueType := .atom .long
@[match_pattern] abbrev bigInt : ValueType := .atom .bigInt
@[match_pattern] abbrev groupElement : ValueType := .atom .groupElement
@[match_pattern] abbrev sigmaProp : ValueType := .atom .sigmaProp
@[match_pattern] abbrev box : ValueType := .atom .box
@[match_pattern] abbrev stateTree : ValueType := .atom .stateTree
@[match_pattern] abbrev header : ValueType := .atom .header
@[match_pattern] abbrev preHeader : ValueType := .atom .preHeader

/-- Byte strings: collections of bytes. -/
abbrev bytes : ValueType := .coll .byte

/-- The numeric types that widen to `Long`. -/
def isNumeric : ValueType → Bool
  | .byte | .short | .int | .long => true
  | _ => false

/-! ## Equality -/

mutual

/-- Decides whether two types are the same. -/
def decEq : (s t : ValueType) → Decidable (s = t)
  | .atom a, .atom b => if h : a = b then isTrue (h ▸ rfl) else isFalse (by simpa using h)
  | .coll s, .coll t =>
    match decEq s t with
    | isTrue h => isTrue (h ▸ rfl)
    | isFalse h => isFalse (by simpa using h)
  | .option s, .option t =>
    match decEq s t with
    | isTrue h => isTrue (h ▸ rfl)
    | isFalse h => isFalse (by simpa using h)
  | .tuple ss, .tuple ts =>
    match decEqAll ss ts with
    | isTrue h => isTrue (h ▸ rfl)
    | isFalse h => isFalse (by simpa using h)
  | .atom _, .coll _ | .atom _, .option _ | .atom _, .tuple _ | .coll _, .atom _
  | .coll _, .option _ | .coll _, .tuple _ | .option _, .atom _ | .option _, .coll _
  | .option _, .tuple _ | .tuple _, .atom _ | .tuple _, .coll _ | .tuple _, .option _ =>
    isFalse (by simp)

/-- Decides whether two lists of types are the same. -/
def decEqAll : (ss ts : List ValueType) → Decidable (ss = ts)
  | [], [] => isTrue rfl
  | s :: ss, t :: ts =>
    match decEq s t, decEqAll ss ts with
    | isTrue h, isTrue h' => isTrue (by rw [h, h'])
    | isFalse h, _ => isFalse (by simp [h])
    | _, isFalse h => isFalse (by simp [h])
  | [], _ :: _ | _ :: _, [] => isFalse (by simp)

end

instance : DecidableEq ValueType := decEq

/-! ## Text -/

mutual

/-- The type as it is written for people. -/
def display : ValueType → String
  | .atom a => a.name
  | .coll t => "Coll[" ++ t.display ++ "]"
  | .option t => "Option[" ++ t.display ++ "]"
  | .tuple ts => "(" ++ displayAll ts ++ ")"

/-- Types with commas between them. -/
def displayAll : List ValueType → String
  | [] => ""
  | [t] => t.display
  | t :: ts => t.display ++ ", " ++ displayAll ts

end

/-! ## Encoding -/

mutual

/-- The encoding: codes in pre-order. -/
def pieces : ValueType → List Piece
  | .atom a => [.u8 "type" a.code]
  | .coll t => .u8 "type" 0x0c :: t.pieces
  | .option t => .u8 "type" 0x24 :: t.pieces
  | .tuple ts => .u8 "type" 0x60 :: .size "n" ts.length :: piecesAll ts

/-- The encodings of some types one after the other. -/
def piecesAll : List ValueType → List Piece
  | [] => []
  | t :: ts => t.pieces ++ piecesAll ts

end

/-- Reads a type, given how its parts are read. -/
def nodeDecoder (part : Decoder ValueType) : Decoder ValueType := do
  match ← Decoder.u8 with
  | 0x0c => return .coll (← part)
  | 0x24 => return .option (← part)
  | 0x60 =>
    let n ← Decoder.size
    if n < 2 then Decoder.malformed .tupleTooShort
    if maxTupleArity < n then Decoder.malformed .tupleTooLong
    return .tuple (← Decoder.replicate n part)
  | c =>
    match AtomType.ofCode? c with
    | none => Decoder.malformed .typeCode
    | some a => return .atom a

/-- Reads a type of at most so many levels. -/
def decoderWithin : Nat → Decoder ValueType
  | 0 => Decoder.malformed .typeTooDeep
  | levels + 1 => nodeDecoder (decoderWithin levels)

/-- Reads a type; its deepest part is at most `maxTypeDepth` below its root. -/
def decoder : Decoder ValueType := decoderWithin (maxTypeDepth + 1)

example : decoder.exactly [0x60, 2, 0, 0, 0, 0x0c, 0x02, 0x24, 0x05]
    = .ok (.tuple [.bytes, .option .long]) := rfl
example : (ValueType.tuple [.bytes, .option .long]).display = "(Coll[Byte], Option[Long])" := by
  decide

end ValueType

end Covenant

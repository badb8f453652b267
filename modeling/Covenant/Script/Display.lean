/-
  DISPLAY — statements, propositions and values as lines of text.

  The forms are meant for reading and comparing.  Points and records are shown by the hexadecimal
  form of their encodings, boxes by their ids, numbers in decimal behind the name of their type.
-/
import Covenant.Script.Encoding

namespace Covenant

/-- Texts with a separator between neighbours. -/
def separated (ss : List String) : String := String.intercalate ", " ss

/-- An encoding in hexadecimal. -/
def shownPieces (ps : List Piece) : String := Hex.encode (Piece.join ps)

/-- A statement with its public points. -/
def Statement.display : Statement → String
  | .dlog y => "(dlog " ++ Hex.encode y.1 ++ ")"
  | .dhTuple g h u v =>
    "(dh " ++ Hex.encode g.1 ++ " " ++ Hex.encode h.1 ++ " " ++ Hex.encode u.1 ++ " " ++
      Hex.encode v.1 ++ ")"

/-- The word for a connective. -/
def Connective.display : Connective → String
  | .all => "and"
  | .any => "or"
  | .atLeast k => s!"atleast {k}"

namespace Proposition

mutual

/-- A proposition as a nested list, connectives first. -/
def display : Proposition → String
  | .trivial b => if b then "true" else "false"
  | .leaf s => s.display
  | .node c cs => "(" ++ c.display ++ displayAll cs ++ ")"

/-- Some propositions with a space before each. -/
def displayAll : List Proposition → String
  | [] => ""
  | c :: cs => " " ++ c.display ++ displayAll cs

end

end Proposition

/-- An atom behind the name of its type. -/
def Atom.display : Atom → String
  | .bool b => if b then "true" else "false"
  | .byte x => s!"Byte {x.toInt}"
  | .short x => s!"Short {x.toInt}"
  | .int x => s!"Int {x.toInt}"
  | .long x => s!"Long {x.toInt}"
  | .bigInt x => s!"BigInt {x.toInt}"
  | .groupElement y => "GroupElement " ++ Hex.encode y.1
  | .sigmaProp p => "SigmaProp " ++ p.display
  | .stateTree t => "AvlTree " ++ shownPieces t.pieces
  | .header h => "Header " ++ shownPieces h.pieces
  | .preHeader h => "PreHeader " ++ shownPieces h.pieces

namespace Value

mutual

/-- A value with the names of the types needed to tell it from others. -/
def display [Suite] : Value → String
  | .atom a => a.display
  | .box b => "Box " ++ Hex.encode b.id.1
  | .bytes b => "Bytes " ++ Hex.encode b
  | .seq t vs => "Coll[" ++ t.display ++ "][" ++ separated (displayAll vs) ++ "]"
  | .tuple vs => "(" ++ separated (displayAll vs) ++ ")"
  | .option t none => "None[" ++ t.display ++ "]"
  | .option t (some v) => "Some[" ++ t.display ++ "](" ++ v.display ++ ")"

/-- Some values, each by itself. -/
def displayAll [Suite] : List Value → List String
  | [] => []
  | v :: vs => v.display :: displayAll vs

end

end Value

example : (Proposition.node (.atLeast 1) [.trivial true, .node .any []]).display
    = "(atleast 1 true (or))" := by decide +kernel

end Covenant

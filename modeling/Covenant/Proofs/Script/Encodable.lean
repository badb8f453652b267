/-
  ENCODABLE — the values, expressions, conditions and boxes that an encoding has room for.

  An encoding has limits: counts and lengths take four octets, types and expressions nest only so
  deep, tuples, tokens and registers are bounded in number, points have to decompress.  Besides, it
  leaves out what a reader finds out from elsewhere, so an object must be what its type says: the
  items of a collection have the collection's type, and bytes are kept flat.

  Values, expressions, conditions and boxes hold one another, and so their encodability is defined
  for all of them at once, one rule for each kind.  A condition must come from somewhere
  (`Condition.Built`): its header and its expression are free fields, and most combinations of them
  are no condition.
-/
import Covenant.Proofs.Codec.Parts
import Covenant.Proofs.Script.Boxes
import Covenant.Proofs.Script.Nesting

namespace Covenant

/-! ## Single nodes -/

/-- The node's own types, counts and numbers fit into an encoding. -/
def Expr.Shape : Expr → Prop
  | .block ds _ => ds.length ≤ Piece.maxSize
  | .variadic _ es => es.length ≤ Piece.maxSize
  | .collOf t es => t.Encodable ∧ es.length ≤ Piece.maxSize
  | .getVar _ t => t.Encodable
  | .register _ i t => (4 ≤ i ∧ i ≤ 9) ∧ t.Encodable
  | .loop _ _ s _ => s.Encodable
  | .fold _ _ s _ => s.Encodable
  | .deserialize _ t => t.Encodable
  | _ => True

/-- The decoder's count of how deep an expression nests, where the body of a function is two levels
below its node, does not exceed its limit. -/
def Expr.Shallow (e : Expr) : Prop := e.depth 2 ≤ maxExprDepth

instance (e : Expr) : Decidable e.Shallow :=
  inferInstanceAs (Decidable (e.depth 2 ≤ maxExprDepth))

/-- What a condition has behind its header and its length. -/
def Condition.body (header : UInt8) (constants : List Value) (root : Expr) : Bytes :=
  Piece.join (constantsPieces header constants ++ root.pieces)

/-- The number of constants and the length of the body fit into a size, where they are written. -/
structure Condition.Countable (header : UInt8) (constants : List Value) (root : Expr) : Prop where
  constants_le : header &&& constantsFlag ≠ 0 → constants.length ≤ Piece.maxSize
  body_le : header &&& sizeFlag ≠ 0 → (body header constants root).length ≤ Piece.maxSize

/-! ## The family -/

variable [Suite]

mutual

/-- The type of the value and what it holds fit into an encoding. -/
inductive Value.Encodable : Value → Prop
  | intro {v : Value} (type : v.type.Encodable) (fits : v.Fits) : Value.Encodable v

/-- What the value holds fits into an encoding and has the types that the value says. -/
inductive Value.Fits : Value → Prop
  | atom {a : Atom} (encodable : a.Encodable) : Value.Fits (.atom a)
  | box {b : Box} (encodable : b.Encodable) : Value.Fits (.box b)
  | bytes {b : Bytes} (length_le : b.length ≤ Piece.maxSize) : Value.Fits (.bytes b)
  | seq {t : ValueType} {vs : List Value} (flat : t ≠ .byte) (typed : ∀ v ∈ vs, v.type = t)
      (length_le : vs.length ≤ Piece.maxSize) (items : ∀ v ∈ vs, v.Fits) : Value.Fits (.seq t vs)
  | tuple {vs : List Value} (items : ∀ v ∈ vs, v.Fits) : Value.Fits (.tuple vs)
  | none {t : ValueType} : Value.Fits (.option t none)
  | some {t : ValueType} {v : Value} (typed : v.type = t) (content : v.Fits) :
      Value.Fits (.option t (some v))

/-- The expression fits into an encoding and is not too deep. -/
inductive Expr.Encodable : Expr → Prop
  | intro {e : Expr} (shallow : e.Shallow) (fits : e.Fits) : Expr.Encodable e

/-- Every node fits into an encoding, with the values in it. -/
inductive Expr.Fits : Expr → Prop
  | node {e : Expr} (shape : e.Shape) (values : ∀ v ∈ e.values, v.Encodable)
      (operands : ∀ s ∈ e.operands, s.Fits) (bodies : ∀ s ∈ e.bodies, s.Fits) : Expr.Fits e

/-- The condition was built or read, and its constants and its expression are encodable. -/
inductive Condition.Encodable : Condition → Prop
  | parsed {header : UInt8} {cs : List Value} {root : Expr}
      (built : Condition.Built (.parsed header cs root))
      (countable : Condition.Countable header cs root)
      (constants : ∀ v ∈ cs, v.Encodable) (expression : root.Encodable) :
      Condition.Encodable (.parsed header cs root)
  | unparsed {octets : Bytes} {reason : CodecError}
      (built : Condition.Built (.unparsed octets reason)) :
      Condition.Encodable (.unparsed octets reason)

/-- The output is within its limits, and its condition and its registers are encodable. -/
inductive Candidate.Encodable : Candidate → Prop
  | intro {c : Candidate} (condition : c.condition.Encodable)
      (condition_le : c.condition.toBytes.length ≤ Piece.maxSize)
      (tokens_le : c.tokens.length ≤ maxTokens) (registers_le : c.registers.length ≤ maxRegisters)
      (registers : ∀ v ∈ c.registers, v.Encodable) : Candidate.Encodable c

/-- The output that the box was is encodable. -/
inductive Box.Encodable : Box → Prop
  | intro {b : Box} (candidate : b.candidate.Encodable) : Box.Encodable b

end

/-- Atoms have flat types. -/
theorem Value.encodable_atom {a : Atom} (h : a.Encodable) : (Value.atom a).Encodable :=
  .intro ⟨Nat.zero_le _, True.intro⟩ (.atom h)

theorem Expr.Fits.const {v : Value} (h : v.Encodable) : (Expr.const v).Fits :=
  .node True.intro (List.forall_mem_singleton.2 h) nofun nofun

/-- A node without parts only has to be in shape itself. -/
theorem Expr.Fits.leaf {e : Expr} (shape : e.Shape) (hvalues : e.values = [])
    (hoperands : e.operands = []) (hbodies : e.bodies = []) : e.Fits :=
  .node shape (by simp [hvalues]) (by simp [hoperands]) (by simp [hbodies])

end Covenant

/-
  CONDITION — building spending conditions and looking into them.

  A condition over an expression is written for the lowest script version that provides all of its
  operations, or for a version of the caller's choice that covers them.  Versions above zero always
  carry the length of the rest, so that readers of an older version can keep what they cannot read.
-/
import Covenant.Script.Decoding

namespace Covenant

/-! ## Operations of an expression -/

namespace Expr

mutual

/-- The operations of all nodes, parents before children and children from left to right. -/
def opcodes : Expr → List Opcode
  | .const v => [Expr.opcode (.const v)]
  | .placeholder i => [Expr.opcode (.placeholder i)]
  | .use i => [Expr.opcode (.use i)]
  | .block ds e => .block :: (opcodesDefs ds ++ e.opcodes)
  | .variadic op es => .variadic op :: opcodesAll es
  | .collOf _ es => .collOf :: opcodesAll es
  | .context f => [.context f]
  | .getVar _ _ => [.getVar]
  | .unary op e => .unary op :: e.opcodes
  | .register e _ _ => .register :: e.opcodes
  | .record f e => .record f.kind :: e.opcodes
  | .binary op a b => .binary op :: (a.opcodes ++ b.opcodes)
  | .ternary op a b c => .ternary op :: (a.opcodes ++ b.opcodes ++ c.opcodes)
  | .byIndex c i none => .byIndex :: (c.opcodes ++ i.opcodes)
  | .byIndex c i (some d) => .byIndex :: (c.opcodes ++ i.opcodes ++ d.opcodes)
  | .loop op c _ b => .loop op :: (c.opcodes ++ b.opcodes)
  | .fold c z _ b => .fold :: (c.opcodes ++ z.opcodes ++ b.opcodes)
  | .selectField e _ => .selectField :: e.opcodes
  | .dhTuple g h u v => .dhTuple :: (g.opcodes ++ h.opcodes ++ u.opcodes ++ v.opcodes)
  | .deserialize _ _ => [.deserialize]

/-- The operations of some expressions. -/
def opcodesAll : List Expr → List Opcode
  | [] => []
  | e :: es => e.opcodes ++ opcodesAll es

/-- The operations of the right-hand sides of some definitions. -/
def opcodesDefs : List (UInt32 × Expr) → List Opcode
  | [] => []
  | (_, e) :: ds => e.opcodes ++ opcodesDefs ds

end

/-- The lowest script version that provides every operation of an expression. -/
def requiredVersion (e : Expr) : UInt8 := e.opcodes.foldl (fun v op => max v op.since) 0

/-- The first operation that a script version does not provide. -/
def firstNewer? (version : UInt8) (e : Expr) : Option Opcode :=
  e.opcodes.find? fun op => version < op.since

end Expr

/-! ## Conditions -/

namespace Condition

/-- The header of a condition: its version, and whether it has a table of constants. -/
def headerFor (version : UInt8) (constants : Bool) : UInt8 :=
  (version &&& versionMask) ||| (if 0 < version then sizeFlag else 0)
    ||| (if constants then constantsFlag else 0)

/-- The condition over an expression, at the lowest version that covers it. -/
def new (root : Expr) : Condition := .parsed (headerFor root.requiredVersion false) [] root

/-- The condition over an expression that refers to a table of constants. -/
def withConstants (constants : List Value) (root : Expr) : Condition :=
  -- the table is announced even when it is empty
  .parsed (headerFor root.requiredVersion true) constants root

/-- The condition at a given version, which must cover every operation. -/
def versioned (version : UInt8) (constants : List Value) (root : Expr) :
    Except CodecError Condition :=
  if maxScriptVersion < version then .error (.invalidFormat .scriptVersion)
  else
    match root.firstNewer? version with
    | some op => .error (.unsupportedOpcode op.code)
    -- an empty table is not announced here
    | none => .ok (.parsed (headerFor version !constants.isEmpty) constants root)

/-- The condition that asks for a proof of `p` in any context. -/
def ofProposition (p : Proposition) : Condition := new (.const (.sigmaProp p))

/-- The header octet. -/
def header : Condition → UInt8
  | .parsed h _ _ => h
  | .unparsed b _ => b.headD 0

/-- The script version. -/
def version (c : Condition) : UInt8 := c.header &&& versionMask

/-- Whether the length of the rest is written. -/
def hasSize (c : Condition) : Bool := c.header &&& sizeFlag ≠ 0

/-- Whether a table of constants is written. -/
def hasConstants (c : Condition) : Bool := c.header &&& constantsFlag ≠ 0

/-- The table of constants; empty for a condition that could not be read. -/
def constants : Condition → List Value
  | .parsed _ cs _ => cs
  | .unparsed _ _ => []

/-- The expression, for a condition that could be read. -/
def root? : Condition → Option Expr
  | .parsed _ _ e => some e
  | .unparsed _ _ => none

/-- Why the condition could not be read. -/
def reason? : Condition → Option CodecError
  | .parsed _ _ _ => none
  | .unparsed _ e => some e

/-- The binary form of the expression alone: conditions that differ only in their table of
constants share it. -/
def templateBytes : Condition → Except CodecError Bytes
  | .parsed _ _ e => .ok e.toBytes
  | .unparsed _ e => .error e

/-- The constant that the root is, directly or through the table. -/
def rootConstant? : Condition → Option Value
  | .parsed _ _ (.const v) => some v
  | .parsed _ cs (.placeholder i) => cs[i.toNat]?
  | _ => none

/-- The proposition that a condition stands for without evaluation. -/
def proposition? (c : Condition) : Option Proposition :=
  match c.rootConstant? with
  | some (.sigmaProp p) => some p
  | _ => none

end Condition

end Covenant

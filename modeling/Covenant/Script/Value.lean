/-
  VALUE — values, expressions, conditions and boxes.

  These types hold one another: a value can be a box, a box is guarded by a condition, a condition
  is an expression with a table of constants, and a constant is a value.  So they are declared
  together.  Equality (`Value.same` and its companions) compares them part by part.

  A collection has two forms: byte strings (`bytes`), and everything else (`seq`, with the type of
  its items).  A condition that was written for a newer version of the language is kept as its
  octets, with the reason why it could not be read.
-/
import Covenant.Chain.Header
import Covenant.Proposition
import Covenant.Range
import Covenant.Script.Opcode
import Covenant.Script.ValueType

namespace Covenant

/-! ## Parts -/

/-- Values that hold no other values. -/
inductive Atom
  | bool (b : Bool)
  | byte (x : Int8)
  | short (x : Int16)
  | int (x : Int32)
  | long (x : Int64)
  | bigInt (x : BigInt)
  | groupElement (y : PointName)
  | sigmaProp (p : Proposition)
  | stateTree (t : StateTree)
  | header (h : Header)
  | preHeader (h : PreHeader)
deriving DecidableEq

/-- The type of an atom. -/
def Atom.type : Atom → AtomType
  | .bool _ => .bool
  | .byte _ => .byte
  | .short _ => .short
  | .int _ => .int
  | .long _ => .long
  | .bigInt _ => .bigInt
  | .groupElement _ => .groupElement
  | .sigmaProp _ => .sigmaProp
  | .stateTree _ => .stateTree
  | .header _ => .header
  | .preHeader _ => .preHeader

/-- Identifies a box. -/
abbrev BoxId := Octets 32

/-- Identifies a transaction. -/
abbrev TxId := Octets 32

/-- Identifies a token: the id of the first box spent by the transaction that minted it. -/
abbrev TokenId := Octets 32

/-- An amount of one token. -/
structure Token where
  id : TokenId
  amount : UInt64
deriving DecidableEq

/-- The arguments of a function with their types, and the type of its result. -/
structure Signature where
  args : List (UInt32 × ValueType)
  result : ValueType
deriving DecidableEq

/-! ## The family -/

mutual

/-- A value of the condition language. -/
inductive Value
  | atom (a : Atom)
  | box (b : Box)
  /-- A collection of bytes. -/
  | bytes (b : Bytes)
  /-- A collection of values of one type. -/
  | seq (item : ValueType) (items : List Value)
  | tuple (items : List Value)
  | option (item : ValueType) (content : Option Value)

/-- An expression of the condition language. -/
inductive Expr
  | const (v : Value)
  /-- An entry of the table of constants. -/
  | placeholder (index : UInt32)
  /-- The value bound to a variable. -/
  | use (id : UInt32)
  /-- Definitions, each in the scope of those before it, and a body. -/
  | block (defs : List (UInt32 × Expr)) (body : Expr)
  | variadic (op : VariadicOp) (items : List Expr)
  | collOf (item : ValueType) (items : List Expr)
  | context (f : ContextField)
  /-- A variable supplied by the spender. -/
  | getVar (id : UInt8) (t : ValueType)
  | unary (op : UnaryOp) (e : Expr)
  /-- A register of a box, by number. -/
  | register (e : Expr) (number : UInt8) (t : ValueType)
  | record (f : RecordField) (e : Expr)
  | binary (op : BinaryOp) (a b : Expr)
  | ternary (op : TernaryOp) (a b c : Expr)
  /-- An item of a collection, or the default. -/
  | byIndex (coll index : Expr) (default : Option Expr)
  | loop (op : LoopOp) (coll : Expr) (sig : Signature) (body : Expr)
  | fold (coll zero : Expr) (sig : Signature) (body : Expr)
  /-- An item of a tuple, counted from one. -/
  | selectField (e : Expr) (number : UInt8)
  | dhTuple (g h u v : Expr)
  /-- Runs the script that the spender supplied in a variable. -/
  | deserialize (id : UInt8) (t : ValueType)

/-- A spending condition. -/
inductive Condition
  | parsed (header : UInt8) (constants : List Value) (root : Expr)
  /-- Kept octet for octet, with the reason why it could not be read. -/
  | unparsed (octets : Bytes) (reason : CodecError)

/-- An output before the id of its transaction is known. -/
structure Candidate where
  value : UInt64
  condition : Condition
  tokens : List Token
  /-- The values of registers four, five, … without gaps. -/
  registers : List Value
  creationHeight : UInt32

/-- An output of a transaction. -/
structure Box where
  candidate : Candidate
  transactionId : TxId
  index : UInt16

end

/-! ## Values by kind -/

namespace Value

@[match_pattern] abbrev bool (b : Bool) : Value := .atom (.bool b)
@[match_pattern] abbrev byte (x : Int8) : Value := .atom (.byte x)
@[match_pattern] abbrev short (x : Int16) : Value := .atom (.short x)
@[match_pattern] abbrev int (x : Int32) : Value := .atom (.int x)
@[match_pattern] abbrev long (x : Int64) : Value := .atom (.long x)
@[match_pattern] abbrev bigInt (x : BigInt) : Value := .atom (.bigInt x)
@[match_pattern] abbrev groupElement (y : PointName) : Value := .atom (.groupElement y)
@[match_pattern] abbrev sigmaProp (p : Proposition) : Value := .atom (.sigmaProp p)
@[match_pattern] abbrev stateTree (t : StateTree) : Value := .atom (.stateTree t)
@[match_pattern] abbrev header (h : Header) : Value := .atom (.header h)
@[match_pattern] abbrev preHeader (h : PreHeader) : Value := .atom (.preHeader h)

/-- A pair. -/
def pair (a b : Value) : Value := .tuple [a, b]

mutual

/-- The type of a value. -/
def type : Value → ValueType
  | .atom a => .atom a.type
  | .box _ => .box
  | .bytes _ => .bytes
  | .seq t _ => .coll t
  | .tuple vs => .tuple (typeAll vs)
  | .option t _ => .option t

/-- The types of some values. -/
def typeAll : List Value → List ValueType
  | [] => []
  | v :: vs => v.type :: typeAll vs

end

theorem typeAll_eq_map (vs : List Value) : typeAll vs = vs.map type := by
  induction vs with
  | nil => rfl
  | cons v vs ih => simp [typeAll, ih]

/-- A number that widens to `Long`, as an integer. -/
def toInt? : Value → Option Int
  | .byte x => some x.toInt
  | .short x => some x.toInt
  | .int x => some x.toInt
  | .long x => some x.toInt
  | _ => none

/-- The value of a numeric type that is the given integer, if the type has it. -/
def ofInt? (t : ValueType) (n : Int) : Option Value :=
  match t with
  | .byte => if fitsBits 8 n then some (.byte (Int8.ofInt n)) else none
  | .short => if fitsBits 16 n then some (.short (Int16.ofInt n)) else none
  | .int => if fitsBits 32 n then some (.int (Int32.ofInt n)) else none
  | .long => if fitsBits 64 n then some (.long (Int64.ofInt n)) else none
  | _ => none

end Value

/-- The registers of a box have numbers from four. -/
def Box.register? (b : Box) (number : UInt8) : Option Value :=
  if number < 4 then none else b.candidate.registers[number.toNat - 4]?

/-! ## Equality -/

mutual

/-- Whether two values are the same. -/
def Value.same : Value → Value → Bool
  | .atom a, .atom b => a == b
  | .box a, .box b => a.same b
  | .bytes a, .bytes b => a == b
  | .seq s as, .seq t bs => s == t && Value.sameAll as bs
  | .tuple as, .tuple bs => Value.sameAll as bs
  | .option s a, .option t b => s == t && Value.sameOption a b
  | _, _ => false

/-- Whether two lists of values are the same. -/
def Value.sameAll : List Value → List Value → Bool
  | [], [] => true
  | a :: as, b :: bs => a.same b && Value.sameAll as bs
  | _, _ => false

/-- Whether two optional values are the same. -/
def Value.sameOption : Option Value → Option Value → Bool
  | none, none => true
  | some a, some b => a.same b
  | _, _ => false

/-- Whether two expressions are the same. -/
def Expr.same : Expr → Expr → Bool
  | .const a, .const b => a.same b
  | .placeholder i, .placeholder j => i == j
  | .use i, .use j => i == j
  | .block ds a, .block es b => Expr.sameDefs ds es && a.same b
  | .variadic o as, .variadic p bs => o == p && Expr.sameAll as bs
  | .collOf s as, .collOf t bs => s == t && Expr.sameAll as bs
  | .context f, .context g => f == g
  | .getVar i s, .getVar j t => i == j && s == t
  | .unary o a, .unary p b => o == p && a.same b
  | .register a i s, .register b j t => a.same b && i == j && s == t
  | .record f a, .record g b => f == g && a.same b
  | .binary o a b, .binary p c d => o == p && a.same c && b.same d
  | .ternary o a b c, .ternary p d e f => o == p && a.same d && b.same e && c.same f
  | .byIndex a b c, .byIndex d e f => a.same d && b.same e && Expr.sameOption c f
  | .loop o a s b, .loop p c t d => o == p && a.same c && s == t && b.same d
  | .fold a b s c, .fold d e t f => a.same d && b.same e && s == t && c.same f
  | .selectField a i, .selectField b j => a.same b && i == j
  | .dhTuple a b c d, .dhTuple e f g h => a.same e && b.same f && c.same g && d.same h
  | .deserialize i s, .deserialize j t => i == j && s == t
  | _, _ => false

/-- Whether two lists of expressions are the same. -/
def Expr.sameAll : List Expr → List Expr → Bool
  | [], [] => true
  | a :: as, b :: bs => a.same b && Expr.sameAll as bs
  | _, _ => false

/-- Whether two optional expressions are the same. -/
def Expr.sameOption : Option Expr → Option Expr → Bool
  | none, none => true
  | some a, some b => a.same b
  | _, _ => false

/-- Whether two lists of definitions are the same. -/
def Expr.sameDefs : List (UInt32 × Expr) → List (UInt32 × Expr) → Bool
  | [], [] => true
  | (i, a) :: ds, (j, b) :: es => i == j && a.same b && Expr.sameDefs ds es
  | _, _ => false

/-- Whether two conditions are the same. -/
def Condition.same : Condition → Condition → Bool
  | .parsed h cs a, .parsed k ds b => h == k && Value.sameAll cs ds && a.same b
  | .unparsed b e, .unparsed c f => b == c && e == f
  | _, _ => false

/-- Whether two outputs are the same. -/
def Candidate.same : Candidate → Candidate → Bool
  | ⟨v, c, ts, rs, h⟩, ⟨v', c', ts', rs', h'⟩ =>
    v == v' && c.same c' && ts == ts' && Value.sameAll rs rs' && h == h'

/-- Whether two boxes are the same. -/
def Box.same : Box → Box → Bool
  | ⟨c, t, i⟩, ⟨c', t', i'⟩ => c.same c' && t == t' && i == i'

end

instance : BEq Value := ⟨Value.same⟩
instance : BEq Expr := ⟨Expr.same⟩
instance : BEq Condition := ⟨Condition.same⟩
instance : BEq Candidate := ⟨Candidate.same⟩
instance : BEq Box := ⟨Box.same⟩

/-! ## Collections -/

/-- A collection value: a byte string or a list of values of one type. -/
inductive Coll
  | bytes (b : Bytes)
  | values (item : ValueType) (items : List Value)

namespace Coll

/-- The collection as a value. -/
def toValue : Coll → Value
  | .bytes b => .bytes b
  | .values t vs => .seq t vs

/-- The value as a collection, when it is one. -/
def ofValue? : Value → Option Coll
  | .bytes b => some (.bytes b)
  | .seq t vs => some (.values t vs)
  | _ => none

/-- The type of the items. -/
def itemType : Coll → ValueType
  | .bytes _ => .byte
  | .values t _ => t

/-- Number of items. -/
def size : Coll → Nat
  | .bytes b => b.length
  | .values _ vs => vs.length

/-- An octet as a signed byte. -/
def ofOctet (x : UInt8) : Value := .byte x.toInt8

/-- The items as values. -/
def toList : Coll → List Value
  | .bytes b => b.map ofOctet
  | .values _ vs => vs

/-- The item with number `i`. -/
def get? : Coll → Nat → Option Value
  | .bytes b, i => b[i]?.map ofOctet
  | .values _ vs, i => vs[i]?

/-- The items with numbers from `i` up to but not including `j`. -/
def slice : Coll → Nat → Nat → Coll
  | .bytes b, i, j => .bytes ((b.take j).drop i)
  | .values t vs, i, j => .values t ((vs.take j).drop i)

/-- Numbers `i` and `j` bound a range of items. -/
def inRange (c : Coll) (i j : Nat) : Prop := i ≤ j ∧ j ≤ c.size

instance (c : Coll) (i j : Nat) : Decidable (c.inRange i j) := by unfold inRange; infer_instance

/-- The octet of a byte value. -/
def octet? : Value → Option UInt8
  | .byte x => some x.toUInt8
  | _ => none

/-- The collection of some values of type `t`; bytes take their flat form. -/
def ofList (t : ValueType) (vs : List Value) : Coll :=
  -- values of another type would be lost here: `Value.collOf` checks them first
  if t = .byte then .bytes (vs.filterMap octet?) else .values t vs

@[simp] theorem length_toList (c : Coll) : c.toList.length = c.size := by
  cases c <;> simp [toList, size]

theorem get?_eq (c : Coll) (i : Nat) : c.get? i = c.toList[i]? := by
  cases c <;> simp [get?, toList]

end Coll

/-! ## Checked construction -/

/-- A value has another type than the one required. -/
structure TypeMismatch where
  expected : ValueType
  found : ValueType
deriving DecidableEq

/-- The wording of a mismatch. -/
def TypeMismatch.message (e : TypeMismatch) : String :=
  s!"Type mismatch: expected {e.expected.display}, found {e.found.display}"

namespace Value

/-- The collection of some values, each of which must have type `t`. -/
def collOf (t : ValueType) (vs : List Value) : Except TypeMismatch Value :=
  match vs.find? fun v => v.type ≠ t with
  | some bad => .error ⟨t, bad.type⟩
  | none => .ok (Coll.ofList t vs).toValue

/-- The option that holds a value of type `t` or nothing. -/
def optionOf (t : ValueType) (v : Option Value) : Except TypeMismatch Value :=
  match v with
  | none => .ok (.option t none)
  | some v => if v.type = t then .ok (.option t (some v)) else .error ⟨t, v.type⟩

end Value

end Covenant

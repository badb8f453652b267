/-
  ADDRESS — short texts that name a condition.

  An address is an octet for network and kind, a content, and the first four octets of the BLAKE3
  hash of both.  The content is a public key, the octets of a condition, or the hash of a script
  that a spender must reveal.  The text form is Base58.
-/
import Covenant.Hash.Blake3
import Covenant.Key.Store
import Covenant.Script.Condition
import Covenant.Text.Base58

namespace Covenant

/-- The networks an address can belong to. -/
inductive Network
  | main | test
deriving DecidableEq, Repr

/-- The bits of the first octet that name a network. -/
def Network.code : Network → UInt8
  | main => 0x00
  | test => 0x10

/-- The network that some bits name. -/
def Network.ofCode? (c : UInt8) : Option Network :=
  if c = 0x00 then some .main else if c = 0x10 then some .test else none

/-- Ways to name a condition. -/
inductive Address
  /-- The holder of the discrete logarithm of a point. -/
  | publicKey (y : PointName)
  /-- Any condition, by its octets. -/
  | script (b : Bytes)
  /-- Whoever reveals a script with this hash and satisfies it. -/
  | scriptHash (h : Octets 24)
deriving DecidableEq

/-- The variable in which a spender reveals a hashed script. -/
def revealedScript : UInt8 := 1

/-- The hash that names a script. -/
def hashScript (b : Bytes) : Octets 24 := Octets.firstOf 24 (Blake3.hash b).1

/-- The condition behind a script hash: the bytes in variable `revealedScript` have this hash, and
the script they spell holds. -/
def revealCondition (h : Octets 24) : Expr :=
  let script : Expr := .unary .optionGet (.getVar revealedScript .bytes)
  let hash : Expr := .ternary .slice (.unary .blake3 script) (.const (.int 0)) (.const (.int 24))
  let same : Expr := .binary (.compare .eq) hash (.const (.bytes h.1))
  .variadic .sigmaAnd [.unary .boolToSigma same, .deserialize revealedScript .sigmaProp]

namespace Address

/-- The address of a proposition: its key if it is one discrete logarithm. -/
def ofProposition (p : Proposition) : Address :=
  match p with
  | .leaf (.dlog y) => .publicKey y
  | p => .script (Condition.ofProposition p).toBytes

/-- The address of a condition: the key of a single discrete logarithm, all octets otherwise. -/
def ofCondition (c : Condition) : Address :=
  match c.proposition? with
  | some (.leaf (.dlog y)) => .publicKey y
  | _ => .script c.toBytes

/-- The address of a script by its hash. -/
def ofScript (e : Expr) : Address := .scriptHash (hashScript e.toBytes)

/-- The bits of the first octet that name the kind. -/
def code : Address → UInt8
  | .publicKey _ => 0x01
  | .scriptHash _ => 0x02
  | .script _ => 0x03

/-- What stands between the first octet and the checksum. -/
def content : Address → Bytes
  | .publicKey y => y.1
  | .script b => b
  | .scriptHash h => h.1

/-- The condition of a box that pays to the address. -/
def condition [Suite] : Address → Except CodecError Condition
  | .publicKey y => .ok (.ofProposition (.dlog y))
  | .script b => Condition.ofBytes b
  | .scriptHash h => .ok (.new (revealCondition h))

end Address

/-- An address on a network. -/
structure NetworkAddress where
  network : Network
  address : Address
deriving DecidableEq

namespace NetworkAddress

/-- Number of octets of a checksum. -/
def checksumLength : Nat := 4

/-- The checksum of everything before it. -/
def checksum (b : Bytes) : Bytes := (Blake3.hash b).1.take checksumLength

/-- The binary form without its checksum. -/
def body (a : NetworkAddress) : Bytes := (a.network.code ||| a.address.code) :: a.address.content

/-- The binary form. -/
def toBytes (a : NetworkAddress) : Bytes := a.body ++ checksum a.body

/-- The text form. -/
def toText (a : NetworkAddress) : String := Base58.encode a.toBytes

variable [Suite]

/-- The address with a given kind and content. -/
def ofContent (kind : UInt8) (content : Bytes) : Except CodecError Address :=
  if kind = 0x01 then do
    let y ← Decoder.point.exactly content
    return .publicKey y
  else if kind = 0x02 then
    match Bytes.toOctets? 24 content with
    | none => .error (.invalidFormat .scriptHashLength)
    | some h => .ok (.scriptHash h)
  else if kind = 0x03 then .ok (.script content)
  else .error (.invalidFormat .addressKind)

/-- The address whose binary form without checksum is given. -/
def ofBody : Bytes → Except CodecError NetworkAddress
  | [] => .error .unexpectedEnd
  | c :: content =>
    match Network.ofCode? (c &&& 0xf0) with
    | none => .error (.invalidFormat .networkCode)
    | some network => do
      let a ← ofContent (c &&& 0x0f) content
      return ⟨network, a⟩

/-- The address with the given binary form. -/
def ofBytes (b : Bytes) : Except CodecError NetworkAddress :=
  if b.length < 1 + checksumLength then .error .unexpectedEnd
  else
    let body := b.take (b.length - checksumLength)
    let sum := b.drop (b.length - checksumLength)
    -- a wrong checksum is reported before a wrong kind or network
    if checksum body ≠ sum then .error (.invalidFormat .addressChecksum) else ofBody body

/-- The address with the given text form. -/
def ofText (s : String) : Except CodecError NetworkAddress :=
  match Base58.decode s with
  | none => .error (.invalidFormat .addressText)
  | some b => ofBytes b

/-- The address of the master key of a store. -/
def ofMaster (network : Network) (s : SecretStore) : Option NetworkAddress :=
  s.master.map fun y => ⟨network, .publicKey y⟩

/-- The addresses of the derived keys of a store, in order. -/
def ofDerived (network : Network) (s : SecretStore) : List NetworkAddress :=
  s.derived.map fun d => ⟨network, .publicKey d.2⟩

end NetworkAddress

end Covenant

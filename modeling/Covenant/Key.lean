/-
  KEY — trees of keys derived from one seed.

  A private key is a secret exponent with a 32-octet chain code; a public key is its point with the
  same chain code.  A step of derivation mixes the public part and something that tells siblings
  apart into a transcript and adds the drawn exponent to the key.  Because only public data goes in,
  both sides can take the same steps: the private key by adding to its exponent, the public key by
  adding the same multiple of the generator to its point.

  Keys travel as 64 octets: the exponent or the encoded point, then the chain code.
-/
import Covenant.Suite
import Covenant.Text.Quoted
import Covenant.Text.Words

namespace Covenant

open Suite

/-- A point with the data for deriving further points from it. -/
structure PublicKey [Suite] where
  point : Point
  /-- The encoding of `point`, kept because every derivation absorbs it. -/
  name : PointName
  chainCode : Octets 32
deriving DecidableEq

/-- A secret exponent with its public key. -/
structure PrivateKey [Suite] where
  exponent : Scalar
  publicKey : PublicKey
deriving DecidableEq

/-- What tells the children of one key apart: the messages absorbed for one of them. -/
abbrev Derivation := List Piece

/-- What a caller may do to a derivation's transcript before the exponent is drawn. -/
abbrev Customization := Transcript → Transcript

/-- The derivation of the child with a given number. -/
def Derivation.child (i : UInt32) : Derivation := [.u64 "index" i.toUInt64]

namespace PublicKey

variable [Suite]

/-- The public key of a point. -/
def ofPoint (P : Point) (chainCode : Octets 32) : PublicKey := ⟨P, compress P, chainCode⟩

/-- The exponent that a derivation adds, and the chain code of the derived key. -/
def factor (k : PublicKey) (c : Customization) (label : String) : Scalar × Octets 32 :=
  let t := (Transcript.new "Keytree.derivation").append "pt" k.name.1 |>.append "dk" k.chainCode.1
  let (f, t) := (c t).challengeScalar label
  -- drawn from what the exponent left of the transcript
  (f, (t.challengeBlock "dk" 32).1)

/-- The public key one step down. -/
def deriveWith (k : PublicKey) (c : Customization) : PublicKey :=
  let (f, chainCode) := k.factor c "f.intermediate"
  ofPoint (k.point + f * (base : Point)) chainCode

/-- The point of a key that nothing more is derived from. -/
def leafWith (k : PublicKey) (c : Customization) : PointName :=
  compress (k.point + (k.factor c "f.leaf").1 * (base : Point))

/-- The public key one step down, told apart by messages. -/
def derive (k : PublicKey) (d : Derivation) : PublicKey := k.deriveWith (·.absorb d)

/-- The point of a leaf told apart by messages. -/
def leaf (k : PublicKey) (d : Derivation) : PointName := k.leafWith (·.absorb d)

/-- The child with a given number. -/
def child (k : PublicKey) (i : UInt32) : PublicKey := k.derive (.child i)

/-- The descendant at the end of a path of numbers. -/
def path (k : PublicKey) (is : List UInt32) : PublicKey := is.foldl child k

/-- The binary form. -/
def toBytes (k : PublicKey) : Bytes := k.name.1 ++ k.chainCode.1

/-- The key with the given binary form, if its point decodes. -/
def ofBytes? (b : Bytes) : Option PublicKey := do
  let b ← Bytes.toOctets? 64 b
  let name := Octets.firstOf 32 b.1
  let P ← decompress name
  -- the octets decoded, so the point need not be encoded again
  return ⟨P, name, Octets.firstOf 32 (b.1.drop 32)⟩

end PublicKey

namespace PrivateKey

variable [Suite]

/-- The key of an exponent. -/
def ofExponent (x : Scalar) (chainCode : Octets 32) : PrivateKey :=
  ⟨x, .ofPoint (x * (base : Point)) chainCode⟩

/-- A key from 96 random octets: 64 for the exponent, then the chain code. -/
def ofRandom (b : Octets 96) : PrivateKey :=
  ofExponent (reduce (b.1.take 64)) (Octets.firstOf 32 (b.1.drop 64))

/-- The master key of a seed. -/
def ofSeed (seed : Bytes) : PrivateKey :=
  let t := (Transcript.new "Keytree.seed").append "seed" seed
  let (x, t) := t.challengeScalar "scalar"
  ofExponent x (t.challengeBlock "dk" 32).1

/-- The master key of a phrase and a password.  How the words of the phrase are spaced does not
matter. -/
def ofMnemonic (phrase password : String) : PrivateKey :=
  let words := (Words.normalise phrase).toUTF8.toList
  let t := (Transcript.new "Keytree.mnemonic").append "phrase" words
  let t := t.append "password" password.toUTF8.toList
  ofSeed (t.challengeBlock "seed" 64).1.1

/-- The private key one step down. -/
def deriveWith (k : PrivateKey) (c : Customization) : PrivateKey :=
  let (f, chainCode) := k.publicKey.factor c "f.intermediate"
  ofExponent (k.exponent + f) chainCode

/-- The exponent of a key that nothing more is derived from. -/
def leafWith (k : PrivateKey) (c : Customization) : Scalar :=
  k.exponent + (k.publicKey.factor c "f.leaf").1

/-- The private key one step down, told apart by messages. -/
def derive (k : PrivateKey) (d : Derivation) : PrivateKey := k.deriveWith (·.absorb d)

/-- The exponent of a leaf told apart by messages. -/
def leaf (k : PrivateKey) (d : Derivation) : Scalar := k.leafWith (·.absorb d)

/-- The child with a given number. -/
def child (k : PrivateKey) (i : UInt32) : PrivateKey := k.derive (.child i)

/-- The descendant at the end of a path of numbers. -/
def path (k : PrivateKey) (is : List UInt32) : PrivateKey := is.foldl child k

/-- The binary form. -/
def toBytes (k : PrivateKey) : Bytes := (encodeScalar k.exponent).1 ++ k.publicKey.chainCode.1

/-- The key with the given binary form, if its exponent is canonical. -/
def ofBytes? (b : Bytes) : Option PrivateKey := do
  let b ← Bytes.toOctets? 64 b
  let x ← decodeScalar (Octets.firstOf 32 b.1)
  return ofExponent x (Octets.firstOf 32 (b.1.drop 32))

end PrivateKey

/-! ## How keys are shown -/

/-- A point's encoding as a list of octets in decimal. -/
def PointName.display (y : PointName) : String :=
  "CompressedRistretto: [" ++ String.intercalate ", " (y.1.map fun b => toString b.toNat) ++ "]"

/-- A public key is shown by its point alone. -/
def PublicKey.display [Suite] (k : PublicKey) : String := "Xpub(" ++ PointName.display k.name ++ ")"

/-- A private key is shown by its public key; the exponent stays out of logs. -/
def PrivateKey.display [Suite] (k : PrivateKey) : String :=
  "Xprv \x7b xpub: " ++ k.publicKey.display ++ " \x7d"

/-! ## Keys inside other documents -/

/-- What a document holds where a key is expected. -/
inductive KeyField
  | octets (b : Bytes)
  | text (s : String)
  | number (n : Nat)

/-- Why a document's field is no key. -/
inductive KeyFieldError
  /-- Octets of the wrong number. -/
  | length (n : Nat)
  /-- Octets that do not decode. -/
  | malformed
  /-- Something other than octets. -/
  | kind (shown : String)
deriving DecidableEq, Repr

/-- The wording of a failure, given what was expected. -/
def KeyFieldError.message (expected : String) : KeyFieldError → String
  | length n => s!"invalid length {n}, expected {expected}"
  | malformed => "malformed key bytes"
  | kind shown => s!"invalid type: {shown}, expected {expected}"

/-- Reads a key of 64 octets with `decode`. -/
def KeyField.read {κ : Type} (decode : Bytes → Option κ) : KeyField → Except KeyFieldError κ
  | .octets b =>
    if b.length ≠ 64 then .error (.length b.length)
    else
      match decode b with
      | none => .error .malformed
      | some k => .ok k
  | .text s => .error (.kind ("string " ++ Quoted.encode s))
  | .number n => .error (.kind ("integer " ++ "\x60" ++ toString n ++ "\x60"))

/-- What a field for a private key should hold. -/
def PrivateKey.expected : String := "a 64-byte extended private key"

/-- What a field for a public key should hold. -/
def PublicKey.expected : String := "a 64-byte extended public key"

end Covenant

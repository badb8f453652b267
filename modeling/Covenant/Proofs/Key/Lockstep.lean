/-
  LOCKSTEP — a public key can go wherever its private key goes.

  Whoever watches a wallet holds public keys only and has to find the addresses that the owner will
  use.  The owner adds exponents, the watcher adds multiples of the generator, and either may store
  its key and read it back on the way.  The two stay together as long as both absorb the same
  encoded point and chain code in every step, which one invariant secures:

    1. **Paired keys.** The public part of a private key is that of its exponent, with the encoding
       of its point kept along (`PrivateKey.Paired`).  Every way to make a master key pairs it.
    2. **One step** keeps a private key paired and takes its public part where the public step goes.
    3. **Any number of steps** does the same, by induction, and at every key so reached the leaves
       of both sides agree.
-/
import Covenant.Key
import Covenant.Proofs.Suite.Residues

namespace Covenant

open Suite

/-! ## Where keys come from and go to -/

/-- What a first private key is made from. -/
inductive KeySource
  /-- Octets from a generator of randomness. -/
  | random (b : Octets 96)
  | seed (b : Bytes)
  | mnemonic (phrase password : String)
  /-- The binary form of a key. -/
  | stored (b : Bytes)

/-- A step from one key to the next. -/
inductive KeyStep
  | child (i : UInt32)
  | path (is : List UInt32)
  | derive (c : Customization)
  /-- The key is written out and read back. -/
  | reread

/-- A block is found behind another one. -/
theorem Octets.firstOf_drop {m n : Nat} (a : Octets m) (b : Octets n) :
    firstOf n ((a.1 ++ b.1).drop m) = b := by
  obtain ⟨a, rfl⟩ := a
  simpa using firstOf_append b []

section

variable [Suite]

/-- The first private key, if there is one. -/
def KeySource.key? : KeySource → Option PrivateKey
  | random b => some (.ofRandom b)
  | seed b => some (.ofSeed b)
  | mnemonic phrase password => some (.ofMnemonic phrase password)
  | stored b => PrivateKey.ofBytes? b

/-- The private key after a step. -/
def PrivateKey.step? (k : PrivateKey) : KeyStep → Option PrivateKey
  | .child i => some (k.child i)
  | .path is => some (k.path is)
  | .derive c => some (k.deriveWith c)
  | .reread => ofBytes? k.toBytes

/-- The public key after a step. -/
def PublicKey.step? (k : PublicKey) : KeyStep → Option PublicKey
  | .child i => some (k.child i)
  | .path is => some (k.path is)
  | .derive c => some (k.deriveWith c)
  | .reread => ofBytes? k.toBytes

/-- The private key after some steps. -/
def PrivateKey.run? (k : PrivateKey) (steps : List KeyStep) : Option PrivateKey :=
  steps.foldlM step? k

/-- The public key after some steps. -/
def PublicKey.run? (k : PublicKey) (steps : List KeyStep) : Option PublicKey :=
  steps.foldlM step? k

/-! ## Paired keys -/

namespace PrivateKey

/-- The public part of a private key is that of its exponent. -/
def Paired (k : PrivateKey) : Prop :=
  k.publicKey = .ofPoint (k.exponent * (base : Point)) k.publicKey.chainCode

theorem paired_ofExponent (x : Scalar) (chainCode : Octets 32) :
    (ofExponent x chainCode).Paired := rfl

/-- A paired key is the key of its exponent. -/
theorem Paired.eq {k : PrivateKey} (h : k.Paired) :
    k = ofExponent k.exponent k.publicKey.chainCode :=
  congrArg (PrivateKey.mk k.exponent) h

theorem paired_of_ofBytes? {b : Bytes} {k : PrivateKey} (h : ofBytes? b = some k) : k.Paired := by
  simp only [ofBytes?, Option.bind_eq_bind, Option.bind_eq_some_iff, Option.pure_def,
    Option.some.injEq] at h
  obtain ⟨c, -, x, -, rfl⟩ := h
  exact paired_ofExponent ..

end PrivateKey

/-- Every master key is paired. -/
theorem KeySource.paired {source : KeySource} {k : PrivateKey} (h : source.key? = some k) :
    k.Paired := by
  cases source with
  | random b => cases h; exact PrivateKey.paired_ofExponent ..
  | seed b => cases h; exact PrivateKey.paired_ofExponent ..
  | mnemonic phrase password => cases h; exact PrivateKey.paired_ofExponent ..
  | stored b => exact PrivateKey.paired_of_ofBytes? h

/-! ## One step -/

variable [Lawful]

/-- A public key that carries the encoding of its point survives being stored. -/
theorem PublicKey.ofBytes?_toBytes (P : Point) (chainCode : Octets 32) :
    ofBytes? (ofPoint P chainCode).toBytes = some (ofPoint P chainCode) := by
  have hlength : (ofPoint P chainCode).toBytes.length = 64 := by
    simp [toBytes, (ofPoint P chainCode).name.2, (ofPoint P chainCode).chainCode.2]
  have hname := Octets.firstOf_append (compress P) chainCode.1
  have hcode := Octets.firstOf_drop (compress P) chainCode
  simp only [ofBytes?, Bytes.toOctets?, dif_pos hlength, Option.bind_eq_bind, Option.bind_some]
  simp only [toBytes, ofPoint, hname, hcode, Lawful.decompress_compress, Option.bind_some,
    Option.pure_def]

namespace PrivateKey

/-- The key of an exponent survives being stored: its public part is made anew. -/
theorem ofBytes?_toBytes (x : Scalar) (chainCode : Octets 32) :
    ofBytes? (ofExponent x chainCode).toBytes = some (ofExponent x chainCode) := by
  have hlength : (ofExponent x chainCode).toBytes.length = 64 := by
    simp [toBytes, (encodeScalar x).2, chainCode.2, ofExponent, PublicKey.ofPoint]
  have hscalar := Octets.firstOf_append (encodeScalar x) chainCode.1
  have hcode := Octets.firstOf_drop (encodeScalar x) chainCode
  simp only [ofBytes?, Bytes.toOctets?, dif_pos hlength, Option.bind_eq_bind, Option.bind_some]
  simp only [toBytes, ofExponent, PublicKey.ofPoint, hscalar, hcode,
    Lawful.decodeScalar_encodeScalar, Option.bind_some, Option.pure_def]

variable {k : PrivateKey}

/-- Adding to the exponent is adding a multiple of the generator to the point. -/
theorem Paired.add_smul (h : k.Paired) (f : Scalar) :
    (k.exponent + f) * (base : Point) = k.publicKey.point + f * (base : Point) := by
  rw [Lawful.add_smul, h]
  rfl

theorem Paired.deriveWith (h : k.Paired) (c : Customization) :
    (k.deriveWith c).Paired ∧ (k.deriveWith c).publicKey = k.publicKey.deriveWith c := by
  refine ⟨paired_ofExponent .., ?_⟩
  simp only [PrivateKey.deriveWith, PublicKey.deriveWith, ofExponent, h.add_smul]

theorem Paired.child (h : k.Paired) (i : UInt32) :
    (k.child i).Paired ∧ (k.child i).publicKey = k.publicKey.child i :=
  h.deriveWith _

/-- A path is followed by induction on its numbers, the key being any. -/
theorem Paired.path (h : k.Paired) (is : List UInt32) :
    (k.path is).Paired ∧ (k.path is).publicKey = k.publicKey.path is := by
  induction is generalizing k with
  | nil => exact ⟨h, rfl⟩
  | cons i is ih =>
    obtain ⟨hchild, heq⟩ := h.child i
    obtain ⟨hpath, htail⟩ := ih hchild
    refine ⟨hpath, ?_⟩
    calc (k.path (i :: is)).publicKey = ((k.child i).path is).publicKey := rfl
      _ = (k.child i).publicKey.path is := htail
      _ = k.publicKey.path (i :: is) := by rw [heq]; rfl

/-- Both sides of a paired key survive being stored. -/
theorem Paired.reread (h : k.Paired) :
    ofBytes? k.toBytes = some k ∧ PublicKey.ofBytes? k.publicKey.toBytes = some k.publicKey := by
  constructor
  · rw [h.eq]
    exact ofBytes?_toBytes ..
  · rw [h]
    exact PublicKey.ofBytes?_toBytes ..

/-- **One step** can be taken on both sides and leads to one key. -/
theorem Paired.step? (h : k.Paired) (s : KeyStep) :
    ∃ k', k.step? s = some k' ∧ k.publicKey.step? s = some k'.publicKey ∧ k'.Paired := by
  cases s with
  | child i => exact ⟨_, rfl, congrArg some (h.child i).2.symm, (h.child i).1⟩
  | path is => exact ⟨_, rfl, congrArg some (h.path is).2.symm, (h.path is).1⟩
  | derive c => exact ⟨_, rfl, congrArg some (h.deriveWith c).2.symm, (h.deriveWith c).1⟩
  | reread => exact ⟨k, h.reread.1, h.reread.2, h⟩

/-- **Any number of steps** can be taken on both sides and leads to one key. -/
theorem Paired.run? (h : k.Paired) (steps : List KeyStep) :
    ∃ k', k.run? steps = some k' ∧ k.publicKey.run? steps = some k'.publicKey ∧ k'.Paired := by
  induction steps generalizing k with
  | nil => exact ⟨k, rfl, rfl, h⟩
  | cons s steps ih =>
    obtain ⟨k₁, hprivate, hpublic, h₁⟩ := h.step? s
    obtain ⟨k', hprivate', hpublic', h'⟩ := ih h₁
    refine ⟨k', ?_, ?_, h'⟩
    · rw [PrivateKey.run?, List.foldlM_cons, hprivate]
      exact hprivate'
    · rw [PublicKey.run?, List.foldlM_cons, hpublic]
      exact hpublic'

/-- The leaves of both sides agree. -/
theorem Paired.leafWith (h : k.Paired) (c : Customization) :
    publicPoint (k.leafWith c) = k.publicKey.leafWith c := by
  rw [publicPoint, PrivateKey.leafWith, h.add_smul]
  rfl

/-! ## Whole runs -/

/-- **Watching a wallet.**  From a master key made in any way, any sequence of children, paths,
customised derivations and rereadings can be gone through with the private key and with its public
key alone.  Both end at one public key, which is that of the private key's exponent, and whatever
tells the leaves below it apart, the leaf of the public key is the point of the private leaf. -/
theorem follows {source : KeySource} {k : PrivateKey} (h : source.key? = some k)
    (steps : List KeyStep) :
    ∃ k', k.run? steps = some k' ∧ k.publicKey.run? steps = some k'.publicKey ∧
      k'.publicKey.point = k'.exponent * (base : Point) ∧
      k'.publicKey.name = compress k'.publicKey.point ∧
      ∀ c, compress (k'.leafWith c * (base : Point)) = k'.publicKey.leafWith c := by
  obtain ⟨k', hprivate, hpublic, hpaired⟩ := (KeySource.paired h).run? steps
  refine ⟨k', hprivate, hpublic, ?_, ?_, hpaired.leafWith⟩
  · rw [hpaired]
    rfl
  · rw [hpaired]
    rfl

end PrivateKey

end

/-! ## A stored key among the residues -/

section

attribute [local instance] Suite.residues Suite.lawful_residues

/-- The binary form of the key with exponent 5 and a chain code of zeros. -/
def storedFive : Bytes := 5 :: List.replicate 63 0

/-- Steps of every kind from there. -/
def stepsFromFive : List KeyStep :=
  [.child 1, .reread, .path [2, 3], .derive fun t => (t.append "account" [7]).drew "skip" 16]

theorem PrivateKey.follows_storedFive :
    (KeySource.stored storedFive).key? = some (ofExponent 5 (Octets.zero 32)) ∧
    ∃ k', (ofExponent 5 (Octets.zero 32)).run? stepsFromFive = some k' ∧
      (ofExponent 5 (Octets.zero 32)).publicKey.run? stepsFromFive = some k'.publicKey ∧
      k'.publicKey.point = k'.exponent * (base : Point) ∧
      k'.publicKey.name = compress k'.publicKey.point ∧
      ∀ c, compress (k'.leafWith c * (base : Point)) = k'.publicKey.leafWith c := by
  have hkey : (KeySource.stored storedFive).key? = some (ofExponent 5 (Octets.zero 32)) := by
    decide
  exact ⟨hkey, follows hkey stepsFromFive⟩

end

end Covenant

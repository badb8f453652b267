/-
  STORE — the secrets a prover holds, found by the statements they open.

  A store is built once, from a phrase with derivation numbers, from bare exponents, and from
  exponents of Diffie–Hellman tuples, in this order.  It keeps the first insertion's order; a
  statement supplied twice is listed once and keeps the later secret.  Bare and tuple secrets must
  not be zero, and a tuple must match its secret.

  The sources may be named in any order and any number of times before the store is built
  (`SecretSources.ofCalls`): a phrase takes the place of the one before, all else adds up.
-/
import Covenant.Key
import Covenant.Proof.Leaf

namespace Covenant

open Suite

/-- Why no store was built. -/
inductive StoreError
  /-- Derivation numbers without a phrase. -/
  | mnemonicRequired
  /-- The secret of a Diffie–Hellman tuple does not fit its points. -/
  | inconsistentTuple
  /-- A secret is zero. -/
  | zeroSecret
deriving DecidableEq, Repr

/-- The wording of a failure. -/
def StoreError.message : StoreError → String
  | mnemonicRequired => "Derived secrets require a mnemonic"
  | inconsistentTuple => "DH tuple secret does not match u = g^x and v = h^x"
  | zeroSecret => "Secret must not be zero"

/-- First number on the path of every derived key. -/
def accountIndex : UInt32 := 0

/-- Secrets by statement. -/
structure SecretStore [Suite] where
  /-- Statements with their secrets, in the order they were first supplied. -/
  entries : List (Statement × Scalar)
  /-- The public point of the master key. -/
  master : Option PointName
  /-- Derivation numbers with their public points, in the order requested. -/
  derived : List (UInt32 × PointName)

/-- A tuple with the secret that is claimed for it. -/
structure TupleSecret [Suite] where
  (g h u v : PointName)
  secret : Scalar

/-- Sources of secrets. -/
structure SecretSources [Suite] where
  /-- Phrase and password. -/
  mnemonic : Option (String × String)
  derived : List UInt32
  dlog : List Scalar
  tuples : List TupleSecret

/-- A call that names one more source. -/
inductive SourceCall [Suite]
  | mnemonic (phrase password : String)
  /-- The number of a key below the master key. -/
  | derived (i : UInt32)
  | dlog (x : Scalar)
  | tuple (t : TupleSecret)

namespace SecretSources

variable [Suite]

/-- No sources. -/
def empty : SecretSources := ⟨none, [], [], []⟩

/-- The sources after a call. -/
def add (s : SecretSources) : SourceCall → SecretSources
  | .mnemonic phrase password => { s with mnemonic := some (phrase, password) }
  | .derived i => { s with derived := s.derived ++ [i] }
  | .dlog x => { s with dlog := s.dlog ++ [x] }
  | .tuple t => { s with tuples := s.tuples ++ [t] }

/-- The sources that some calls name. -/
def ofCalls (calls : List SourceCall) : SecretSources := calls.foldl add empty

end SecretSources

/-- What a secret is looked up by: the public values of a statement. -/
inductive Fingerprint
  | dlog (y : Octets 32)
  | dhTuple (g h u v : Octets 32)
deriving DecidableEq

/-- The public values of a statement. -/
def Statement.fingerprint : Statement → Fingerprint
  | .dlog y => .dlog y
  | .dhTuple g h u v => .dhTuple g h u v

namespace SecretStore

variable [Suite]

/-- A store without secrets. -/
def empty : SecretStore := ⟨[], none, []⟩

/-- The secret for a statement, if held. -/
def resolve (s : SecretStore) (st : Statement) : Option Scalar := s.entries.lookup st

/-- The secret with a fingerprint, if held. -/
def find (s : SecretStore) (f : Fingerprint) : Option Scalar :=
  (s.entries.find? fun e => e.1.fingerprint = f).map Prod.snd

/-- The statements that resolve. -/
def statements (s : SecretStore) : List Statement := s.entries.map Prod.fst

/-- Number of statements. -/
def size (s : SecretStore) : Nat := s.entries.length

/-- The secret of the master key. -/
def masterSecret (s : SecretStore) : Option Scalar := do s.resolve (.dlog (← s.master))

/-- Puts a secret under a statement: in place of the one it had, or at the end. -/
def put (st : Statement) (x : Scalar) : List (Statement × Scalar) → List (Statement × Scalar)
  | [] => [(st, x)]
  | (st', x') :: rest => if st' = st then (st, x) :: rest else (st', x') :: put st x rest

/-- Adds a secret for a statement. -/
def insert (s : SecretStore) (st : Statement) (x : Scalar) : SecretStore :=
  { s with entries := put st x s.entries }

/-- Adds an exponent for its own public point. -/
def insertDlog (s : SecretStore) (x : Scalar) : SecretStore := s.insert (.dlog (publicPoint x)) x

/-- Adds the key at `[accountIndex, i]` below the master key. -/
def addDerived (master : PrivateKey) (s : SecretStore) (i : UInt32) : SecretStore :=
  let x := (master.path [accountIndex, i]).exponent
  let s := s.insertDlog x
  { s with derived := s.derived ++ [(i, publicPoint x)] }

/-- Adds a bare exponent. -/
def addDlog (s : SecretStore) (x : Scalar) : Except StoreError SecretStore :=
  if x = 0 then .error .zeroSecret else .ok (s.insertDlog x)

/-- Adds the exponent of a tuple. -/
def addTuple (s : SecretStore) (t : TupleSecret) : Except StoreError SecretStore :=
  if t.secret = 0 then .error .zeroSecret
  else
    match decompress t.g, decompress t.h with
    | some G, some H =>
      if compress (t.secret * G) = t.u ∧ compress (t.secret * H) = t.v then
        .ok (s.insert (.dhTuple t.g t.h t.u t.v) t.secret)
      else .error .inconsistentTuple
    | _, _ => .error .inconsistentTuple

/-- The keys of a phrase: the master key and the requested ones below it. -/
def ofMnemonic (sources : SecretSources) : SecretStore :=
  match sources.mnemonic with
  | none => empty
  | some (phrase, password) =>
    let master := PrivateKey.ofMnemonic phrase password
    -- keys of a phrase are not checked for zero
    let s := { empty.insertDlog master.exponent with master := some (publicPoint master.exponent) }
    sources.derived.foldl (addDerived master) s

/-- Builds the store of all sources. -/
def build (sources : SecretSources) : Except StoreError SecretStore := do
  if !sources.derived.isEmpty && sources.mnemonic.isNone then throw .mnemonicRequired
  -- sources that come later win where two supply the same statement
  let s ← sources.dlog.foldlM addDlog (ofMnemonic sources)
  sources.tuples.foldlM addTuple s

/-- A store is shown without any secret. -/
def display (s : SecretStore) : String :=
  let master := match s.master with
    | none => "None"
    | some y => "Some(" ++ PointName.display y ++ ")"
  s!"SecretStore \x7b len: {s.size}, master: {master}, derived: {s.derived.length} \x7d"

end SecretStore

end Covenant

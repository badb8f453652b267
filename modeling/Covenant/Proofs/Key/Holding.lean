/-
  HOLDING — a store holds true openings and keeps track of them.

  The prover trusts a store blindly: a secret that does not open its statement gives proofs that
  never verify.  Secrets get into a store by several routes, in any number of calls and with
  repetitions, and the later of two secrets for one statement takes the place of the earlier.

  1. **Calls** — whatever the order of the calls, they amount to the last phrase and to the
     numbers, exponents and tuples in the order in which they came (`SecretSources.ofCalls_eq`).
  2. **One sequence of insertions** — a store that is built is the result of inserting, one after
     the other, all supplied statements with their secrets; building fails exactly when one of them
     is refused (`SecretStore.build_eq_ok`).
  3. **One insertion** changes what is found for one statement and lists it unless it is listed
     already.  Along a sequence of insertions, then, what is found is what came last, and no
     statement is listed twice (`SecretStore.Holds`).
  4. **A map with a list beside it** — kept apart, the secrets in a map by fingerprint and the
     statements in a list that grows when the map had nothing, the two stay in step (`Keyring`).
-/
import Covenant.Key.Store
import Covenant.Proofs.Outcome
import Covenant.Proofs.Suite.Residues
import Mathlib.Data.Finmap

namespace Covenant

open Suite

/-- Statements with the same public values are the same. -/
theorem Statement.fingerprint_injective : Function.Injective fingerprint := by
  intro s t h
  cases s <;> cases t <;> cases h <;> rfl

theorem Statement.fingerprint_surjective : Function.Surjective fingerprint := by
  intro f
  cases f with
  | dlog y => exact ⟨.dlog y, rfl⟩
  | dhTuple g h u v => exact ⟨.dhTuple g h u v, rfl⟩

section

variable [Suite]

/-! ## Calls -/

namespace SourceCall

/-- What calls of one kind give is what was called with. -/
theorem mem_filterMap_iff {α : Type} {f : SourceCall → Option α} (mk : α → SourceCall)
    (h : ∀ call a, f call = some a ↔ call = mk a) {calls : List SourceCall} {a : α} :
    a ∈ calls.filterMap f ↔ mk a ∈ calls := by
  simp [List.mem_filterMap, h]

/-- The phrase and password that a call gives. -/
def mnemonic? : SourceCall → Option (String × String)
  | .mnemonic phrase password => some (phrase, password)
  | _ => none

/-- The number of a derived key that a call asks for. -/
def derived? : SourceCall → Option UInt32
  | .derived i => some i
  | _ => none

/-- The bare exponent that a call gives. -/
def dlog? : SourceCall → Option Scalar
  | .dlog x => some x
  | _ => none

/-- The tuple that a call gives. -/
def tuple? : SourceCall → Option TupleSecret
  | .tuple t => some t
  | _ => none

variable {calls : List SourceCall}

theorem mem_filterMap_mnemonic? {phrase password : String} :
    (phrase, password) ∈ calls.filterMap mnemonic? ↔ .mnemonic phrase password ∈ calls :=
  mem_filterMap_iff (fun m : String × String => .mnemonic m.1 m.2)
    fun call m => by cases call <;> simp [mnemonic?, Prod.ext_iff]

theorem mem_filterMap_derived? {i : UInt32} :
    i ∈ calls.filterMap derived? ↔ .derived i ∈ calls :=
  mem_filterMap_iff .derived fun call i => by cases call <;> simp [derived?]

theorem mem_filterMap_dlog? {x : Scalar} : x ∈ calls.filterMap dlog? ↔ .dlog x ∈ calls :=
  mem_filterMap_iff .dlog fun call x => by cases call <;> simp [dlog?]

theorem mem_filterMap_tuple? {t : TupleSecret} : t ∈ calls.filterMap tuple? ↔ .tuple t ∈ calls :=
  mem_filterMap_iff .tuple fun call t => by cases call <;> simp [tuple?]

end SourceCall

/-- **What calls amount to**: the last phrase, and everything else in order. -/
theorem SecretSources.ofCalls_eq (calls : List SourceCall) :
    ofCalls calls =
      { mnemonic := (calls.filterMap SourceCall.mnemonic?).getLast?
        derived := calls.filterMap SourceCall.derived?
        dlog := calls.filterMap SourceCall.dlog?
        tuples := calls.filterMap SourceCall.tuple? } := by
  -- calls are gathered from the left, so the induction takes off the last one
  induction calls using List.reverseRecOn with
  | nil => rfl
  | append_singleton calls call ih =>
    have hlast : ofCalls (calls ++ [call]) = (ofCalls calls).add call := by
      rw [ofCalls, List.foldl_append]
      rfl
    rw [hlast, ih]
    cases call <;>
      simp [add, SourceCall.mnemonic?, SourceCall.derived?, SourceCall.dlog?, SourceCall.tuple?,
        List.filterMap_append, List.getLast?_append]

/-! ## What is supplied -/

/-- The statement of a tuple. -/
def TupleSecret.statement (t : TupleSecret) : Statement := .dhTuple t.g t.h t.u t.v

/-- The statement of a tuple with its secret. -/
def TupleSecret.entry (t : TupleSecret) : Statement × Scalar := (t.statement, t.secret)

/-- An exponent with the statement about its own public point. -/
def ownEntry (x : Scalar) : Statement × Scalar := (.dlog (publicPoint x), x)

/-- The exponent of a key below a master key. -/
def derivedExponent (master : PrivateKey) (i : UInt32) : Scalar :=
  (master.path [accountIndex, i]).exponent

namespace SecretSources

variable (sources : SecretSources)

/-- The master key of the phrase. -/
def masterKey? : Option PrivateKey :=
  sources.mnemonic.map fun m => PrivateKey.ofMnemonic m.1 m.2

/-- The exponents of the phrase's keys: the master key's, then those of the keys below it. -/
def keyExponents : List Scalar :=
  match sources.masterKey? with
  | none => []
  | some master => master.exponent :: sources.derived.map (derivedExponent master)

/-- All statements with the secrets that are supplied for them, in the order of insertion. -/
def supplied : List (Statement × Scalar) :=
  (sources.keyExponents ++ sources.dlog).map ownEntry ++
    sources.tuples.map TupleSecret.entry

/-- Nothing among the sources is refused. -/
structure Admissible : Prop where
  phrase : sources.mnemonic = none → sources.derived = []
  dlog : ∀ x ∈ sources.dlog, x ≠ 0
  tuple : ∀ t ∈ sources.tuples, t.secret ≠ 0 ∧ t.statement.opens t.secret

variable {sources}

/-- What is admissible is true. -/
theorem Admissible.opens (h : sources.Admissible) {e : Statement × Scalar}
    (he : e ∈ sources.supplied) : e.1.opens e.2 := by
  rcases List.mem_append.1 he with he | he
  · obtain ⟨x, -, rfl⟩ := List.mem_map.1 he
    show publicPoint x = publicPoint x
    rfl
  · obtain ⟨t, ht, rfl⟩ := List.mem_map.1 he
    exact (h.tuple t ht).2

end SecretSources

/-! ## One sequence of insertions -/

namespace SecretStore

/-- The entries after putting in some statements with their secrets. -/
def putAll (entries new : List (Statement × Scalar)) : List (Statement × Scalar) :=
  new.foldl (fun es e => put e.1 e.2 es) entries

theorem putAll_append (entries es fs : List (Statement × Scalar)) :
    putAll entries (es ++ fs) = putAll (putAll entries es) fs :=
  List.foldl_append

/-- A sequence of insertions changes nothing but the entries. -/
theorem foldl_insert {α : Type} (entry : α → Statement × Scalar) (as : List α) (s : SecretStore) :
    as.foldl (fun s a => s.insert (entry a).1 (entry a).2) s =
      { s with entries := putAll s.entries (as.map entry) } := by
  induction as generalizing s with
  | nil => rfl
  | cons a as ih => exact ih _

theorem foldl_addDerived (master : PrivateKey) (is : List UInt32) (s : SecretStore) :
    is.foldl (addDerived master) s =
      { s with
        entries := putAll s.entries (is.map fun i => ownEntry (derivedExponent master i))
        derived := s.derived ++ is.map fun i => (i, publicPoint (derivedExponent master i)) } := by
  induction is generalizing s with
  | nil => simp [putAll]
  | cons i is ih =>
    rw [List.foldl_cons, ih, addDerived]
    simp [insertDlog, insert, putAll, ownEntry, derivedExponent]

/-- The store of all that is supplied. -/
def ofSources (sources : SecretSources) : SecretStore where
  entries := putAll [] sources.supplied
  master := sources.masterKey?.map fun master => publicPoint master.exponent
  derived := match sources.masterKey? with
    | none => []
    | some master => sources.derived.map fun i => (i, publicPoint (derivedExponent master i))

/-- The keys of a phrase go in as the exponents of their own points. -/
theorem ofMnemonic_eq (sources : SecretSources) :
    ofMnemonic sources =
      ⟨putAll [] (sources.keyExponents.map ownEntry), (ofSources sources).master,
        (ofSources sources).derived⟩ := by
  unfold ofMnemonic ofSources SecretSources.keyExponents SecretSources.masterKey?
  cases sources.mnemonic with
  | none => rfl
  | some m =>
    simp only [Option.map_some, foldl_addDerived, List.map_cons, List.map_map]
    rfl

theorem addDlog_eq_ok (x : Scalar) (s s' : SecretStore) :
    s.addDlog x = .ok s' ↔ x ≠ 0 ∧ s' = s.insert (ownEntry x).1 (ownEntry x).2 := by
  unfold addDlog
  by_cases hx : x = 0
  · simp [hx]
  · rw [if_neg hx, Except.ok.injEq, eq_comm]
    exact (and_iff_right hx).symm

theorem addTuple_eq_ok (t : TupleSecret) (s s' : SecretStore) :
    s.addTuple t = .ok s' ↔
      (t.secret ≠ 0 ∧ t.statement.opens t.secret) ∧ s' = s.insert t.entry.1 t.entry.2 := by
  unfold addTuple
  by_cases hx : t.secret = 0
  · simp [hx]
  rw [if_neg hx, and_iff_right hx]
  -- a statement opens by its points decoding and the two equations, which is what is checked
  show _ ↔ (∃ G H, decompress t.g = some G ∧ decompress t.h = some H ∧
    t.u = compress (t.secret * G) ∧ t.v = compress (t.secret * H)) ∧ _
  split
  · rename_i G H hG hH
    simp only [hG, hH, Option.some.injEq]
    split <;> grind [TupleSecret.statement, TupleSecret.entry]
  · rename_i hnone
    simp only [reduceCtorEq, false_iff, not_and]
    -- a point that does not decode leaves nothing to open
    rintro ⟨G, H, hG, hH, -⟩
    exact (hnone G H hG hH).elim

/-- **Building** puts in all that is supplied, and fails exactly when something is refused. -/
theorem build_eq_ok {sources : SecretSources} {s : SecretStore} :
    build sources = .ok s ↔ sources.Admissible ∧ s = ofSources sources := by
  have hphrase : ¬(!sources.derived.isEmpty && sources.mnemonic.isNone) = true ↔
      (sources.mnemonic = none → sources.derived = []) := by
    cases sources.mnemonic <;> simp
  simp only [build, Outcome.check_eq_ok, Outcome.bind_eq_ok, Outcome.foldlM_eq_ok addDlog_eq_ok,
    Outcome.foldlM_eq_ok addTuple_eq_ok, hphrase]
  -- the secrets are put in by kinds, as the list of all that was supplied has them in order
  have hentries : putAll [] sources.supplied =
      putAll (putAll (putAll [] (sources.keyExponents.map ownEntry)) (sources.dlog.map ownEntry))
        (sources.tuples.map TupleSecret.entry) := by
    rw [SecretSources.supplied, List.map_append, putAll_append, putAll_append]
  have hstore : ofSources sources = sources.tuples.foldl
      (fun s t => s.insert t.entry.1 t.entry.2)
      (sources.dlog.foldl (fun s x => s.insert (ownEntry x).1 (ownEntry x).2)
        (ofMnemonic sources)) := by
    rw [ofMnemonic_eq, foldl_insert ownEntry, foldl_insert TupleSecret.entry]
    exact congrArg (SecretStore.mk · _ _) hentries
  rw [hstore]
  constructor
  · rintro ⟨hphrase, _, ⟨hdlog, rfl⟩, htuple, rfl⟩
    exact ⟨⟨hphrase, hdlog, htuple⟩, rfl⟩
  · rintro ⟨h, rfl⟩
    exact ⟨h.phrase, _, ⟨h.dlog, rfl⟩, h.tuple, rfl⟩

/-! ## One insertion -/

theorem lookup_cons (st st' : Statement) (x : Scalar) (es : List (Statement × Scalar)) :
    ((st, x) :: es).lookup st' = if st' = st then some x else es.lookup st' := by
  rw [List.lookup_cons]
  by_cases h : st' = st
  · simp [h]
  · rw [beq_eq_false_iff_ne.2 h, if_neg h]

theorem lookup_put (st st' : Statement) (x : Scalar) (es : List (Statement × Scalar)) :
    (put st x es).lookup st' = if st' = st then some x else es.lookup st' := by
  induction es with
  | nil => exact lookup_cons st st' x []
  | cons e es ih =>
    obtain ⟨st₁, x₁⟩ := e
    rw [put]
    by_cases h : st₁ = st
    · rw [if_pos h, h, lookup_cons, lookup_cons]
      grind
    · rw [if_neg h, lookup_cons, lookup_cons, ih]
      grind

theorem keys_put (st : Statement) (x : Scalar) (es : List (Statement × Scalar)) :
    (put st x es).map Prod.fst =
      if st ∈ es.map Prod.fst then es.map Prod.fst else es.map Prod.fst ++ [st] := by
  induction es with
  | nil => simp [put]
  | cons e es ih =>
    obtain ⟨st₁, x₁⟩ := e
    rw [put]
    by_cases h : st₁ = st
    · simp [h]
    · rw [if_neg h, List.map_cons, ih]
      -- a statement in front of the place does not change where it is found behind
      have hmem : st ∈ ((st₁, x₁) :: es).map Prod.fst ↔ st ∈ es.map Prod.fst := by
        simp [Ne.symm h]
      by_cases hst : st ∈ es.map Prod.fst
      · rw [if_pos hst, if_pos (hmem.2 hst), List.map_cons]
      · rw [if_neg hst, if_neg (mt hmem.1 hst), List.map_cons, List.cons_append]

/-- The entries are those of some insertions, the last ones prevailing. -/
structure Holds (entries supplied : List (Statement × Scalar)) : Prop where
  /-- What is found for a statement came last. -/
  lookup : ∀ st, entries.lookup st = supplied.reverse.lookup st
  nodup : (entries.map Prod.fst).Nodup

theorem Holds.put {entries supplied : List (Statement × Scalar)} (h : Holds entries supplied)
    (e : Statement × Scalar) : Holds (put e.1 e.2 entries) (supplied ++ [e]) where
  lookup st := by
    have hlast : (supplied ++ [e]).reverse = e :: supplied.reverse := by simp
    rw [hlast, lookup_put, lookup_cons, h.lookup]
  nodup := by
    rw [keys_put]
    split
    · exact h.nodup
    · rename_i hnew
      exact List.nodup_append.2 ⟨h.nodup, List.nodup_singleton _, by grind⟩

/-- **Along a sequence of insertions** the last secret for a statement is the one that is found, and
every statement is listed once. -/
theorem holds_putAll (supplied : List (Statement × Scalar)) :
    Holds (putAll [] supplied) supplied := by
  induction supplied using List.reverseRecOn with
  | nil => exact ⟨fun _ => rfl, List.nodup_nil⟩
  | append_singleton es e ih =>
    rw [putAll_append]
    exact ih.put e

/-- What is found was supplied. -/
theorem Holds.mem {entries supplied : List (Statement × Scalar)} (h : Holds entries supplied)
    {st : Statement} {x : Scalar} (hx : entries.lookup st = some x) : (st, x) ∈ supplied := by
  rw [h.lookup] at hx
  obtain ⟨before, after, hsupplied, -⟩ := List.lookup_eq_some_iff.1 hx
  exact List.mem_reverse.1 (by simp [hsupplied])

/-- A statement is listed exactly when a secret is found for it. -/
theorem mem_statements_iff {s : SecretStore} {st : Statement} :
    st ∈ s.statements ↔ ∃ x, s.resolve st = some x := by
  rw [statements, resolve, ← Option.isSome_iff_exists, List.lookup_isSome_iff, List.mem_map]
  simp only [beq_iff_eq, eq_comm (a := st)]

/-- Looking up a fingerprint is looking up its statement. -/
theorem find_fingerprint (s : SecretStore) (st : Statement) :
    s.find st.fingerprint = s.resolve st := by
  unfold find resolve
  induction s.entries with
  | nil => rfl
  | cons e es ih =>
    obtain ⟨st₁, x₁⟩ := e
    rw [lookup_cons, ← ih, List.find?_cons]
    by_cases h : st = st₁
    · simp [h]
    · have hne : st₁.fingerprint ≠ st.fingerprint := fun heq =>
        h (Statement.fingerprint_injective heq).symm
      simp [h, hne]

end SecretStore

/-! ## A map with a list beside it -/

/-- Secrets in a map by fingerprint, and the statements in a list of their own. -/
structure Keyring where
  secrets : Finmap fun _ : Fingerprint => Scalar
  statements : List Statement

namespace Keyring

/-- Puts a secret into the map; the statement goes onto the list when the map had none for it. -/
def insert (k : Keyring) (e : Statement × Scalar) : Keyring where
  secrets := k.secrets.insert e.1.fingerprint e.2
  statements :=
    if (k.secrets.lookup e.1.fingerprint).isNone then k.statements ++ [e.1] else k.statements

/-- The keyring after some insertions. -/
def ofEntries (es : List (Statement × Scalar)) : Keyring := es.foldl insert ⟨∅, []⟩

/-- The keyring holds what the entries hold. -/
structure Keeps (k : Keyring) (entries : List (Statement × Scalar)) : Prop where
  lookup : ∀ st : Statement, k.secrets.lookup st.fingerprint = entries.lookup st
  statements : k.statements = entries.map Prod.fst

theorem Keeps.insert {k : Keyring} {entries : List (Statement × Scalar)} (h : k.Keeps entries)
    (e : Statement × Scalar) : (k.insert e).Keeps (SecretStore.put e.1 e.2 entries) where
  lookup st := by
    rw [SecretStore.lookup_put, ← h.lookup]
    show (k.secrets.insert e.1.fingerprint e.2).lookup st.fingerprint = _
    by_cases hst : st = e.1
    · rw [if_pos hst, hst, Finmap.lookup_insert]
    · rw [if_neg hst, Finmap.lookup_insert_of_ne _ (Statement.fingerprint_injective.ne hst)]
  statements := by
    have hnew : (k.secrets.lookup e.1.fingerprint).isNone ↔ e.1 ∉ entries.map Prod.fst := by
      rw [h.lookup, Option.isNone_iff_eq_none, List.lookup_eq_none_iff]
      grind
    show (if _ then _ else _) = _
    rw [SecretStore.keys_put, h.statements]
    grind

theorem keeps_ofEntries (es : List (Statement × Scalar)) :
    (ofEntries es).Keeps (SecretStore.putAll [] es) := by
  induction es using List.reverseRecOn with
  | nil => exact ⟨fun _ => rfl, rfl⟩
  | append_singleton es e ih =>
    rw [SecretStore.putAll_append, ofEntries, List.foldl_append]
    exact ih.insert e

/-- The keyring has as many secrets as there are entries. -/
theorem Keeps.card {k : Keyring} {entries : List (Statement × Scalar)} (h : k.Keeps entries)
    (hnodup : (entries.map Prod.fst).Nodup) : k.secrets.keys.card = entries.length := by
  have hkeys : k.secrets.keys = ((entries.map Prod.fst).map Statement.fingerprint).toFinset := by
    ext f
    obtain ⟨st, rfl⟩ := Statement.fingerprint_surjective f
    rw [Finmap.mem_keys, ← Finmap.lookup_isSome, h.lookup, List.mem_toFinset,
      List.mem_map_of_injective Statement.fingerprint_injective, List.lookup_isSome_iff,
      List.mem_map]
    simp only [beq_iff_eq, eq_comm (a := st)]
  rw [hkeys, List.toFinset_card_of_nodup (hnodup.map Statement.fingerprint_injective)]
  simp

/-- The keyring and the store answer alike. -/
structure Agrees (k : Keyring) (s : SecretStore) : Prop where
  find : ∀ f, k.secrets.lookup f = s.find f
  statements : k.statements = s.statements
  size : k.secrets.keys.card = s.size

theorem Keeps.agrees {k : Keyring} {s : SecretStore} (h : k.Keeps s.entries)
    (hnodup : s.statements.Nodup) : k.Agrees s where
  find f := by
    obtain ⟨st, rfl⟩ := Statement.fingerprint_surjective f
    rw [SecretStore.find_fingerprint, h.lookup]
    rfl
  statements := h.statements
  size := h.card hnodup

end Keyring

/-! ## What a store holds -/

/-- Exponents with the same public point are the same. -/
theorem publicPoint_injective [Lawful] (hbase : (base : Point) ≠ 0) :
    Function.Injective (publicPoint : Scalar → PointName) := by
  intro x y h
  have heq : x * (base : Point) = y * (base : Point) := compress_injective h
  have hzero : (x - y) * (base : Point) = 0 := by
    rw [mul_eq_smul, sub_smul, ← mul_eq_smul, ← mul_eq_smul, heq, sub_self]
  rcases smul_point_eq_zero.1 hzero with hsub | hbase'
  · exact sub_eq_zero.1 hsub
  · exact absurd hbase' hbase

namespace SecretStore

/-- What can be relied on of a store that was built from some calls. -/
structure Faithful (calls : List SourceCall) (s : SecretStore) : Prop where
  /-- A secret that is found opens the statement with the fingerprint. -/
  opens : ∀ f x, s.find f = some x → ∃ st ∈ s.statements, st.fingerprint = f ∧ st.opens x
  /-- The statements listed are those that resolve. -/
  listed : ∀ st, st ∈ s.statements ↔ ∃ x, s.find st.fingerprint = some x
  nodup : s.statements.Nodup
  size : s.size = s.statements.length
  /-- They are the statements that were supplied. -/
  supplied : ∀ st, st ∈ s.statements ↔ ∃ x, (st, x) ∈ (SecretSources.ofCalls calls).supplied
  /-- The point of a derived key resolves to this key's secret, whatever else was supplied. -/
  derived : ∀ i y, (i, y) ∈ s.derived → ∃ phrase password,
    (calls.filterMap SourceCall.mnemonic?).getLast? = some (phrase, password) ∧
    s.find (Statement.dlog y).fingerprint =
      some ((PrivateKey.ofMnemonic phrase password).path [accountIndex, i]).exponent
  /-- Each requested number is among the derived keys, in order. -/
  requested : s.derived.map Prod.fst = calls.filterMap SourceCall.derived?
  /-- A map with a list of statements beside it holds the same when the same is put in. -/
  keyring : (Keyring.ofEntries (SecretSources.ofCalls calls).supplied).Agrees s

theorem not_admissible_iff {calls : List SourceCall} :
    ¬(SecretSources.ofCalls calls).Admissible ↔
      (∃ i, .derived i ∈ calls) ∧ (∀ phrase password, .mnemonic phrase password ∉ calls) ∨
      .dlog 0 ∈ calls ∨
      ∃ t, .tuple t ∈ calls ∧ (t.secret = 0 ∨ ¬t.statement.opens t.secret) := by
  have hphrase : (calls.filterMap SourceCall.mnemonic?).getLast? = none ↔
      ∀ phrase password, .mnemonic phrase password ∉ calls := by
    rw [List.getLast?_eq_none_iff, List.eq_nil_iff_forall_not_mem, Prod.forall]
    simp only [SourceCall.mem_filterMap_mnemonic?]
  have hderived : calls.filterMap SourceCall.derived? ≠ [] ↔ ∃ i, .derived i ∈ calls := by
    simp only [Ne, List.eq_nil_iff_forall_not_mem, SourceCall.mem_filterMap_derived?, not_forall,
      not_not]
  -- each rule of admissibility, read off the calls instead of the collected lists
  have hadmissible : (SecretSources.ofCalls calls).Admissible ↔
      ((∀ phrase password, .mnemonic phrase password ∉ calls) → ¬∃ i, .derived i ∈ calls) ∧
      (∀ x, .dlog x ∈ calls → x ≠ 0) ∧
      ∀ t, .tuple t ∈ calls → t.secret ≠ 0 ∧ t.statement.opens t.secret := by
    rw [SecretSources.ofCalls_eq, ← hphrase, ← hderived, not_not]
    simp only [← SourceCall.mem_filterMap_dlog?, ← SourceCall.mem_filterMap_tuple?]
    exact ⟨fun h => ⟨h.phrase, h.dlog, h.tuple⟩, fun h => ⟨h.1, h.2.1, h.2.2⟩⟩
  have htuple : (∀ t, .tuple t ∈ calls → t.secret ≠ 0 ∧ t.statement.opens t.secret) ↔
      ¬∃ t, .tuple t ∈ calls ∧ (t.secret = 0 ∨ ¬t.statement.opens t.secret) := by
    grind
  have hdlog : (∀ x, .dlog x ∈ calls → x ≠ 0) ↔ .dlog 0 ∉ calls :=
    ⟨fun h hmem => h 0 hmem rfl, fun h x hmem hx => h (hx ▸ hmem)⟩
  rw [hadmissible, htuple, hdlog, not_and_or, not_and_or, Classical.not_imp, not_not, not_not,
    not_not, and_comm]

theorem exists_error_iff {sources : SecretSources} :
    (∃ e, build sources = .error e) ↔ ¬sources.Admissible := by
  constructor
  · rintro ⟨e, he⟩ hadmissible
    rw [build_eq_ok.2 ⟨hadmissible, rfl⟩] at he
    cases he
  · intro hrefused
    cases hbuild : build sources with
    | error e => exact ⟨e, rfl⟩
    | ok s => exact absurd (build_eq_ok.1 hbuild).1 hrefused

/-- The point of a derived key is listed among the supplied statements with the key's secret. -/
theorem exists_of_mem_derived {sources : SecretSources} {i : UInt32} {y : PointName}
    (h : (i, y) ∈ (ofSources sources).derived) : ∃ phrase password,
      sources.mnemonic = some (phrase, password) ∧
      (.dlog y, derivedExponent (PrivateKey.ofMnemonic phrase password) i) ∈ sources.supplied := by
  cases hphrase : sources.mnemonic with
  | none => simp [ofSources, SecretSources.masterKey?, hphrase] at h
  | some m =>
    refine ⟨m.1, m.2, rfl, ?_⟩
    simp only [ofSources, SecretSources.masterKey?, hphrase, Option.map_some, List.mem_map,
      Prod.mk.injEq] at h
    obtain ⟨j, hj, rfl, rfl⟩ := h
    refine List.mem_append_left _ (List.mem_map.2 ⟨_, List.mem_append_left _ ?_, rfl⟩)
    simp only [SecretSources.keyExponents, SecretSources.masterKey?, hphrase, Option.map_some]
    exact List.mem_cons_of_mem _ (List.mem_map_of_mem hj)

theorem numbers_derived {sources : SecretSources} (h : sources.Admissible) :
    (ofSources sources).derived.map Prod.fst = sources.derived := by
  cases hphrase : sources.mnemonic with
  | none => simp [ofSources, SecretSources.masterKey?, hphrase, h.phrase hphrase]
  | some m => simp [ofSources, SecretSources.masterKey?, hphrase, Function.comp_def]

variable [Lawful]

/-- A store of admissible sources can be relied on. -/
theorem faithful_ofSources (hbase : (base : Point) ≠ 0) {calls : List SourceCall}
    (hadmissible : (SecretSources.ofCalls calls).Admissible) :
    (ofSources (.ofCalls calls)).Faithful calls := by
  have hholds : Holds (ofSources (.ofCalls calls)).entries (SecretSources.ofCalls calls).supplied :=
    holds_putAll _
  have hopens {st : Statement} {x : Scalar}
      (hx : (ofSources (.ofCalls calls)).resolve st = some x) : st.opens x :=
    hadmissible.opens (hholds.mem hx)
  have hfound {st : Statement} {x : Scalar}
      (hx : (st, x) ∈ (SecretSources.ofCalls calls).supplied) :
      ∃ x', (ofSources (.ofCalls calls)).resolve st = some x' := by
    rw [resolve, hholds.lookup, ← Option.isSome_iff_exists, List.lookup_isSome_iff]
    exact ⟨(st, x), List.mem_reverse.2 hx, beq_self_eq_true st⟩
  refine
    { opens := ?_, listed := ?_, nodup := hholds.nodup, size := List.length_map .. |>.symm,
      supplied := ?_, derived := ?_, requested := ?_, keyring := ?_ }
  · intro f x hx
    obtain ⟨st, rfl⟩ := Statement.fingerprint_surjective f
    rw [find_fingerprint] at hx
    exact ⟨st, mem_statements_iff.2 ⟨x, hx⟩, rfl, hopens hx⟩
  · intro st
    simp only [find_fingerprint, mem_statements_iff]
  · intro st
    rw [mem_statements_iff]
    constructor
    · rintro ⟨x, hx⟩
      exact ⟨x, hholds.mem hx⟩
    · rintro ⟨x, hx⟩
      exact hfound hx
  · intro i y hmem
    obtain ⟨phrase, password, hphrase, hkey⟩ := exists_of_mem_derived hmem
    refine ⟨phrase, password, ?_, ?_⟩
    · rw [← hphrase, SecretSources.ofCalls_eq]
    · -- a later secret may have taken the key's place, but only one with the key's point
      obtain ⟨x, hx⟩ := hfound hkey
      have hsame : publicPoint x = publicPoint
          (derivedExponent (PrivateKey.ofMnemonic phrase password) i) :=
        (hopens hx).symm.trans (hadmissible.opens hkey)
      rw [find_fingerprint, hx, publicPoint_injective hbase hsame]
      rfl
  · rw [numbers_derived hadmissible, SecretSources.ofCalls_eq]
  · exact (Keyring.keeps_ofEntries _).agrees hholds.nodup

/-- **A store holds true openings.**  Whatever calls name its sources, building fails exactly when
a derived key is asked for without a phrase, or a secret is zero, or a tuple does not match its
secret.  Otherwise every secret that the store finds opens its statement, also when the statement
was supplied several times or by different routes, the statements listed are those that resolve,
each once, and each derived key resolves to its own secret. -/
theorem holds_openings (hbase : (base : Point) ≠ 0) (calls : List SourceCall) :
    ((∃ e, build (.ofCalls calls) = .error e) ↔
      (∃ i, .derived i ∈ calls) ∧ (∀ phrase password, .mnemonic phrase password ∉ calls) ∨
      .dlog 0 ∈ calls ∨
      ∃ t, .tuple t ∈ calls ∧ (t.secret = 0 ∨ ¬t.statement.opens t.secret)) ∧
    ∀ s, build (.ofCalls calls) = .ok s → s.Faithful calls := by
  refine ⟨exists_error_iff.trans not_admissible_iff, fun s hbuild => ?_⟩
  obtain ⟨hadmissible, rfl⟩ := build_eq_ok.1 hbuild
  exact faithful_ofSources hbase hadmissible

end SecretStore

end

/-! ## A store of several routes among the residues -/

section

attribute [local instance] Suite.residues Suite.lawful_residues

/-- Secrets by every route, some of them twice: here every derived key has exponent 21. -/
def severalRoutes : List SourceCall :=
  [.derived 0, .mnemonic "slam warrior" "", .dlog (ofNat 21), .mnemonic "arch toast" "pw",
    .tuple ⟨multiple 2, multiple 3, multiple 10, multiple 15, ofNat 5⟩, .derived 5, .dlog (ofNat 9)]

set_option maxRecDepth 4000 in
theorem SecretStore.holds_openings_severalRoutes : (base : Point) ≠ 0 ∧
    ∃ s, build (.ofCalls severalRoutes) = .ok s ∧ s.size = 4 ∧ s.Faithful severalRoutes := by
  have hbase : (base : Point) ≠ 0 := (one_ne_zero : (1 : ZMod 257) ≠ 0)
  have hbuild : build (.ofCalls severalRoutes) = .ok _ := rfl
  exact ⟨hbase, _, hbuild, rfl, (holds_openings hbase severalRoutes).2 _ hbuild⟩

end

end Covenant

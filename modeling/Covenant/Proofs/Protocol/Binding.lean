/-
  BINDING — what the challenge of a proof depends on.

  The challenge is drawn from a transcript that absorbed the message and then the nodes of the
  proposition in pre-order, each leaf with its commitment.

  1. **The transcript of a run** — `boundTranscript` is all that was absorbed when the challenge is
     drawn; it exists for every valid proposition with commitments that fit its leaves
     (`exists_boundTranscript`).  `prove` and `verify` use nothing else to find the challenge
     (`prove_eq`, `verify_eq`).
  2. **Reading back** — the node's tag tells its kind, its count how many subtrees follow, and a
     leaf has as many points and commitments as its tag says.  So the pieces of a tree, with
     anything after them, determine the tree, its commitments and what comes after
     (`boundPieces_append_inj`, by induction on the tree).
  3. **`boundTranscript_binds`** — two runs absorb the same only if message, proposition and
     commitments are the same.
-/
import Covenant.Proof.Prover
import Covenant.Proof.Verifier
import Covenant.Proofs.Protocol.Marking
import Covenant.Proofs.Suite.Residues

namespace Covenant

/-! ## Commitments that fit -/

/-- The commitment is of the statement's kind. -/
def Commitment.Fits : Statement → Commitment → Prop
  | .dlog _, .dlog _ => True
  | .dhTuple _ _ _ _, .dhTuple _ _ => True
  | _, _ => False

namespace Proposition

mutual

/-- The pieces of a subtree with the commitments of its leaves from left to right. -/
def boundPieces (as : List Commitment) : Proposition → List Piece
  | .trivial _ => []
  | .leaf s => .u8 "tag" s.tag :: s.points ++ as.flatMap Commitment.pieces
  | .node c cs => c.pieces cs.length ++ boundPiecesAll as cs

/-- The pieces of sibling subtrees with the commitments of all their leaves. -/
def boundPiecesAll (as : List Commitment) : List Proposition → List Piece
  | [] => []
  | c :: cs =>
    c.boundPieces (as.take c.leaves.length) ++ boundPiecesAll (as.drop c.leaves.length) cs

end

theorem fits_take_drop {ss ss' : List Statement} {as : List Commitment}
    (h : List.Forall₂ Commitment.Fits (ss ++ ss') as) :
    List.Forall₂ Commitment.Fits ss (as.take ss.length) ∧
      List.Forall₂ Commitment.Fits ss' (as.drop ss.length) := by
  constructor
  · simpa using List.forall₂_take ss.length h
  · simpa using List.forall₂_drop ss.length h

theorem length_siblings (i : Nat) (cs : List Proposition) :
    (siblings i cs).length = cs.length := by
  induction cs generalizing i with
  | nil => rfl
  | cons c cs ih => simp [siblings, ih]

/-! ## The transcript of a run -/

mutual

/-- A listed subtree enters the transcript as its pieces. -/
theorem nodePieces_listFrom {d i : Nat} {parent : Option Nat} : ∀ {p : Proposition}
    {ns ms : List ListedNode} {as bs : List Commitment} {ps : List Piece},
    listFrom d i parent p = .ok ns → List.Forall₂ Commitment.Fits p.leaves as →
      nodePieces ms bs = .ok ps → nodePieces (ns ++ ms) (as ++ bs) = .ok (p.boundPieces as ++ ps)
  | .trivial b, _, _, _, _, _, h, _, _ => by
    simp only [listFrom] at h
    -- settled values are never listed
    split at h <;> cases h
  | .leaf s, ns, ms, as, bs, ps, h, has, hrest => by
    cases has with
    | @cons _ a _ as _ hnil =>
      cases hnil
      simp only [listFrom] at h
      split at h
      · cases h
      · cases h
        simp only [List.cons_append, List.nil_append, nodePieces, hrest, Outcome.ok_bind,
          boundPieces, List.flatMap_cons, List.flatMap_nil, List.append_nil]
        simp [Outcome.pure_eq]
  | .node c cs, ns, ms, as, bs, ps, h, has, hrest => by
    simp only [listFrom, Outcome.check_eq_ok, Outcome.unit_bind_eq_ok] at h
    -- the checks of a node leave its own entry in front of those of its children
    obtain ⟨-, -, below, hbelow, h⟩ : _ ∧ _ ∧ _ := ⟨h.1, h.2.1, Outcome.bind_eq_ok.1 h.2.2⟩
    cases h
    simp only [List.cons_append, nodePieces, nodePiecesAll_listFrom hbelow has hrest,
      Outcome.ok_bind, boundPieces, length_siblings, List.append_assoc]
    rfl

theorem nodePiecesAll_listFrom {d i parent : Nat} : ∀ {cs : List Proposition}
    {ns ms : List ListedNode} {as bs : List Commitment} {ps : List Piece},
    listAllFrom d i parent cs = .ok ns → List.Forall₂ Commitment.Fits (leavesAll cs) as →
      nodePieces ms bs = .ok ps →
      nodePieces (ns ++ ms) (as ++ bs) = .ok (boundPiecesAll as cs ++ ps)
  | [], ns, ms, as, bs, ps, h, has, hrest => by
    cases h
    cases has
    exact hrest
  | c :: cs, ns, ms, as, bs, ps, h, has, hrest => by
    simp only [listAllFrom, Outcome.bind_eq_ok] at h
    obtain ⟨first, hfirst, rest, hafter, h⟩ := h
    cases h
    obtain ⟨htake, hdrop⟩ := fits_take_drop has
    -- the first child takes as many commitments as it has leaves
    have hsplit : as ++ bs = as.take c.leaves.length ++ (as.drop c.leaves.length ++ bs) := by
      rw [← List.append_assoc, List.take_append_drop]
    rw [boundPiecesAll, List.append_assoc, List.append_assoc, hsplit]
    exact nodePieces_listFrom hfirst htake (nodePiecesAll_listFrom hafter hdrop hrest)

end

end Proposition

/-- All that was absorbed when the challenge of a proof is drawn. -/
def boundTranscript (message : Bytes) (p : Proposition) (as : List Commitment) :
    Except TreeDefect Transcript := do
  let ns ← p.listing
  let ps ← challengePieces ns as
  return (Transcript.ofMessage message).absorb ps

/-- The transcript of a run over a valid proposition with commitments that fit. -/
theorem boundTranscript_eq_ok {message : Bytes} {p : Proposition} {ns : List ListedNode}
    {as : List Commitment} (hns : p.listing = .ok ns)
    (has : List.Forall₂ Commitment.Fits p.leaves as) :
    boundTranscript message p as = .ok ((Transcript.ofMessage message).absorb
      (.size "nodes" ns.length :: p.boundPieces as)) := by
  have hpieces : nodePieces ns as = .ok (p.boundPieces as) := by
    have hlist := (Proposition.listing_eq p).symm.trans hns
    simpa using Proposition.nodePieces_listFrom hlist has (rfl : nodePieces [] [] = .ok [])
  simp only [boundTranscript, challengePieces, hns, hpieces, Outcome.ok_bind]
  rfl

theorem exists_boundTranscript {p : Proposition} (hp : p.NonTrivial)
    (hvalid : p.validate = .ok ()) {as : List Commitment}
    (has : List.Forall₂ Commitment.Fits p.leaves as) (message : Bytes) :
    ∃ tr, boundTranscript message p as = .ok tr := by
  obtain ⟨ns, hns⟩ := (Proposition.validate_iff_listing hp).1 hvalid
  exact ⟨_, boundTranscript_eq_ok hns has⟩

/-- A step that only takes over the defects of a tree. -/
theorem ProverError.ofTree_eq_ok {α : Type} {x : Except TreeDefect α} {a : α} :
    ProverError.ofTree x = .ok a ↔ x = .ok a := by
  cases x <;> simp [ProverError.ofTree]

section

variable [Suite]

/-- The challenge of a run. -/
def Transcript.rootChallenge (tr : Transcript) : Suite.Scalar := (tr.challengeScalar "e").1

/-- The plan that a prover follows. -/
def Plan.toProve (resolve : Statement → Option Suite.Scalar) (p : Proposition) : Plan :=
  (Plan.mark resolve p).polish true

/-- The supply of nonces for a plan over a message. -/
def Plan.supply (plan : Plan) (message : Bytes) (entropy : Octets 32) : Suite.Nonces :=
  Suite.nonces (Transcript.ofMessage message).entries plan.secrets entropy

theorem rootChallenge_eq {p : Proposition} {ns : List ListedNode} (hns : p.listing = .ok ns)
    (message : Bytes) (as : List Commitment) : rootChallenge message ns as =
      (boundTranscript message p as).map Transcript.rootChallenge := by
  simp only [rootChallenge, boundTranscript, hns, Outcome.ok_bind]
  cases challengePieces ns as <;> rfl

/-- **What the prover's challenge depends on**: the transcript of the run. -/
theorem prove_eq {p : Proposition} (hp : p.NonTrivial) (resolve : Statement → Option Suite.Scalar)
    (message : Bytes) (entropy : Octets 32) : prove p resolve message entropy = do
      let _ ← ProverError.ofTree p.listing
      if !(Plan.mark resolve p).isReal then throw .secretNotFound
      let (d, _) ← commit Suite.nextNonce (Plan.toProve resolve p)
        ((Plan.toProve resolve p).supply message entropy)
      let tr ← ProverError.ofTree (boundTranscript message p d.commitments)
      let t ← d.respond tr.rootChallenge
      return t.toBytes := by
  have hunfold : prove p resolve message entropy = do
      let ns ← ProverError.ofTree p.listing
      if !(Marks.find resolve ns).isReal 0 then throw .secretNotFound
      let plan := Plan.ofMarks ((Marks.find resolve ns).polish ns) 0 p
      let (d, _) ← commit Suite.nextNonce plan (plan.supply message entropy)
      let e ← ProverError.ofTree (rootChallenge message ns d.commitments)
      let t ← d.respond e
      return t.toBytes := by
    cases p with
    | trivial b => cases hp
    | leaf | node => rfl
  rw [hunfold]
  cases hns : p.listing with
  | error d => rfl
  | ok ns =>
    -- the marks of the listing make the plan that recursion over the proposition makes
    have hroot : (Marks.find resolve ns).isReal 0 = (Plan.mark resolve p).isReal :=
      (Marks.found_find hns).real_eq 0 p (Nat.le_refl 0) (Proposition.getElem?_subtrees_zero p)
    have hplan : Plan.ofMarks ((Marks.find resolve ns).polish ns) 0 p = Plan.toProve resolve p :=
      Plan.ofMarks_polish_find hns
    simp only [ProverError.ofTree, Outcome.ok_bind, hroot, hplan]
    cases (Plan.mark resolve p).isReal with
    | false => rfl
    | true =>
      cases hd : commit Suite.nextNonce (Plan.toProve resolve p)
        ((Plan.toProve resolve p).supply message entropy) with
      | error d => rfl
      | ok x =>
        simp only [Bool.not_true, Bool.false_eq_true, if_false, Outcome.ok_bind,
          rootChallenge_eq hns]
        cases boundTranscript message p x.1.commitments <;> rfl

/-- The verdict on a finished tree. -/
def ProofTree.judge (weight : Nat → Suite.Scalar) (t : ProofTree) :
    Except VerificationError Unit :=
  match t.equations? with
  | none => .error .invalidProof
  | some qs => if Equation.allHold weight qs then .ok () else .error .invalidProof

/-- **What the verifier's challenge depends on**: the transcript of the run. -/
theorem verify_eq {p : Proposition} (hp : p.NonTrivial) (proof message : Bytes)
    (weight : Nat → Suite.Scalar) : verify p proof message weight = (do
      let _ ← VerificationError.ofTree p.listing
      let k ← ((Sketch.decoder false p).exactly proof).mapError .malformedProof
      let tr ← VerificationError.ofTree (boundTranscript message p k.commitments)
      let t ← VerificationError.ofTree (k.propagate tr.rootChallenge)
      t.judge weight) := by
  have hunfold : verify p proof message weight = (do
      let ns ← VerificationError.ofTree p.listing
      let k ← ((Sketch.decoder false p).exactly proof).mapError .malformedProof
      let e ← VerificationError.ofTree (rootChallenge message ns k.commitments)
      let t ← VerificationError.ofTree (k.propagate e)
      t.judge weight) := by
    cases p with
    | trivial b => cases hp
    | leaf | node =>
      simp only [verify]
      -- the two differ in how a failure to read is turned into one to verify
      congr! 2
      cases (Sketch.decoder false _).exactly proof <;> rfl
  rw [hunfold]
  cases hns : p.listing with
  | error d => rfl
  | ok ns =>
    cases (Sketch.decoder false p).exactly proof with
    | error e => rfl
    | ok k =>
      simp only [VerificationError.ofTree, Except.mapError, Outcome.ok_bind, rootChallenge_eq hns]
      cases boundTranscript message p k.commitments <;> rfl

end

/-! ## Reading back -/

theorem Piece.block_inj {l : String} {n : Nat} {b b' : Octets n} :
    Piece.block l b = Piece.block l b' ↔ b = b' := by
  simp [Piece.block, Subtype.ext_iff]

/-- Counts up to `maxSize` are told apart. -/
theorem Piece.size_inj {l : String} {m n : Nat} (hm : m ≤ maxSize) (hn : n ≤ maxSize) :
    Piece.size l m = Piece.size l n ↔ m = n := by
  refine ⟨fun h => ?_, fun h => h ▸ rfl⟩
  have hread {k : Nat} (hk : k ≤ maxSize) : Bytes.ofLE (Bytes.toLE 4 (min k maxSize)) = k := by
    rw [Nat.min_eq_left hk]
    exact Bytes.ofLE_toLE 4 k (Nat.lt_succ_of_le hk)
  rw [← hread hm, ← hread hn]
  exact congrArg Bytes.ofLE (Piece.mk.inj h).2

namespace Proposition

/-- A leaf with its commitment is told from any other, whatever follows. -/
theorem leafPieces_append_inj {s s' : Statement} {a a' : Commitment} (ha : a.Fits s)
    (ha' : a'.Fits s') {rest rest' : List Piece}
    (h : .u8 "tag" s.tag :: s.points ++ a.pieces ++ rest =
      .u8 "tag" s'.tag :: s'.points ++ a'.pieces ++ rest') : s = s' ∧ a = a' ∧ rest = rest' := by
  -- the tag tells the kind, and the kind how many points and commitments there are
  cases s <;> cases s' <;> cases a <;> cases ha <;> cases a' <;> cases ha' <;>
    simp_all [Statement.points, Statement.tag, Piece.u8, Piece.block_inj, Commitment.pieces,
      Commitment.points]

/-- A connective with the count of its children is told from any other. -/
theorem connectivePieces_append_inj {c c' : Connective} {n n' : Nat} (hc : c.Allows n)
    (hc' : c'.Allows n') {rest rest' : List Piece}
    (h : c.pieces n ++ rest = c'.pieces n' ++ rest') : c = c' ∧ n = n' ∧ rest = rest' := by
  have hmax : maxChildren ≤ Piece.maxSize := by decide
  have hn := hc.le_maxChildren.trans hmax
  have hn' := hc'.le_maxChildren.trans hmax
  have hk := hc.required_le.trans hn
  have hk' := hc'.required_le.trans hn'
  cases c <;> cases c' <;>
    simp_all [Connective.pieces, Connective.tag, Piece.u8, Piece.size_inj, Connective.required]

mutual

/-- **Reading back**: the pieces of a tree, with anything after them, determine the tree, its
commitments and what comes after. -/
theorem boundPieces_append_inj : ∀ {p p' : Proposition} {as as' : List Commitment}
    {rest rest' : List Piece}, p.WellFormed → p'.WellFormed →
      List.Forall₂ Commitment.Fits p.leaves as → List.Forall₂ Commitment.Fits p'.leaves as' →
      p.boundPieces as ++ rest = p'.boundPieces as' ++ rest' → p = p' ∧ as = as' ∧ rest = rest'
  | .leaf s, .leaf s', _, _, _, _, _, _, .cons ha .nil, .cons ha' .nil, h => by
    simp only [boundPieces, List.flatMap_singleton] at h
    obtain ⟨rfl, rfl, rfl⟩ := leafPieces_append_inj ha ha' h
    exact ⟨rfl, rfl, rfl⟩
  | .leaf s, .node c cs, _, _, _, _, _, _, _, _, h => by
    simp only [boundPieces] at h
    cases s <;> cases c <;> cases h
  | .node c cs, .leaf s, _, _, _, _, _, _, _, _, h => by
    simp only [boundPieces] at h
    cases s <;> cases c <;> cases h
  | .node c cs, .node c' cs', _, _, _, _, hp, hp', has, has', h => by
    -- tag and count come first, and with them the number of children
    simp only [boundPieces, List.append_assoc] at h
    obtain ⟨rfl, hlen, h⟩ := connectivePieces_append_inj hp.1 hp'.1 h
    obtain ⟨rfl, rfl, rfl⟩ := boundPiecesAll_append_inj hlen hp.2 hp'.2 has has' h
    exact ⟨rfl, rfl, rfl⟩

theorem boundPiecesAll_append_inj : ∀ {cs cs' : List Proposition} {as as' : List Commitment}
    {rest rest' : List Piece}, cs.length = cs'.length → WellFormedAll cs → WellFormedAll cs' →
      List.Forall₂ Commitment.Fits (leavesAll cs) as →
      List.Forall₂ Commitment.Fits (leavesAll cs') as' →
      boundPiecesAll as cs ++ rest = boundPiecesAll as' cs' ++ rest' →
      cs = cs' ∧ as = as' ∧ rest = rest'
  | [], [], _, _, _, _, _, _, _, .nil, .nil, h => ⟨rfl, rfl, h⟩
  | c :: cs, c' :: cs', as, as', _, _, hlen, hp, hp', has, has', h => by
    obtain ⟨htake, hdrop⟩ := fits_take_drop has
    obtain ⟨htake', hdrop'⟩ := fits_take_drop has'
    simp only [boundPiecesAll, List.append_assoc] at h
    -- each child ends where its own reading says, so the next begins at the same place in both
    obtain ⟨rfl, hfirst, h⟩ := boundPieces_append_inj hp.1 hp'.1 htake htake' h
    obtain ⟨rfl, hrest, rfl⟩ :=
      boundPiecesAll_append_inj (Nat.succ.inj hlen) hp.2 hp'.2 hdrop hdrop' h
    refine ⟨rfl, ?_, rfl⟩
    rw [← List.take_append_drop c.leaves.length as, hfirst, hrest, List.take_append_drop]

end

end Proposition

/-- What was absorbed determines message, proposition and commitments. -/
theorem boundTranscript_injective {m m' : Bytes} {p p' : Proposition} {as as' : List Commitment}
    (hp : p.NonTrivial) (hvalid : p.validate = .ok ()) (hp' : p'.NonTrivial)
    (hvalid' : p'.validate = .ok ()) (has : List.Forall₂ Commitment.Fits p.leaves as)
    (has' : List.Forall₂ Commitment.Fits p'.leaves as')
    (h : boundTranscript m p as = boundTranscript m' p' as') : m = m' ∧ p = p' ∧ as = as' := by
  obtain ⟨ns, hns⟩ := (Proposition.validate_iff_listing hp).1 hvalid
  obtain ⟨ns', hns'⟩ := (Proposition.validate_iff_listing hp').1 hvalid'
  rw [boundTranscript_eq_ok hns has, boundTranscript_eq_ok hns' has'] at h
  -- the message is the first entry, and the count of nodes is given up: the pieces tell more
  have hentries := congrArg Transcript.entries (Except.ok.inj h)
  simp only [Transcript.ofMessage, Transcript.absorb, Transcript.append, Transcript.new,
    List.nil_append, List.cons_append, List.map_cons, List.cons.injEq,
    Transcript.Entry.message.injEq, true_and] at hentries
  obtain ⟨rfl, -, hmap⟩ := hentries
  have hpieces : p.boundPieces as = p'.boundPieces as' :=
    List.map_injective_iff.2 (fun q q' heq => by cases q; cases q'; simpa using heq) hmap
  obtain ⟨rfl, rfl, -⟩ := Proposition.boundPieces_append_inj
    ((Proposition.validate_eq_ok hp).1 hvalid).1 ((Proposition.validate_eq_ok hp').1 hvalid').1
    has has' (congrArg (· ++ []) hpieces)
  exact ⟨rfl, rfl, rfl⟩

/-- **Binding.**  Over a valid proposition with commitments that fit its leaves there is one
transcript that both the prover and the verifier draw the challenge from, and no other message,
proposition or commitments lead to it. -/
theorem boundTranscript_binds [Suite] {p : Proposition} (hp : p.NonTrivial)
    (hvalid : p.validate = .ok ()) (message : Bytes) {as : List Commitment}
    (has : List.Forall₂ Commitment.Fits p.leaves as) :
    ∃ tr, boundTranscript message p as = .ok tr ∧
      (∀ (message' : Bytes) (p' : Proposition) (as' : List Commitment), p'.NonTrivial →
        p'.validate = .ok () → List.Forall₂ Commitment.Fits p'.leaves as' →
        boundTranscript message' p' as' = .ok tr → message' = message ∧ p' = p ∧ as' = as) ∧
      (∀ (resolve : Statement → Option Suite.Scalar) (entropy : Octets 32) (d : Draft)
        (s : Suite.Nonces), (Plan.mark resolve p).isReal = true →
        commit Suite.nextNonce (Plan.toProve resolve p)
          ((Plan.toProve resolve p).supply message entropy) = .ok (d, s) → d.commitments = as →
        prove p resolve message entropy = (d.respond tr.rootChallenge).map ProofTree.toBytes) ∧
      ∀ (proof : Bytes) (k : Sketch) (weight : Nat → Suite.Scalar),
        (Sketch.decoder false p).exactly proof = .ok k → k.commitments = as →
        verify p proof message weight =
          VerificationError.ofTree (k.propagate tr.rootChallenge) >>= ProofTree.judge weight := by
  obtain ⟨ns, hns⟩ := (Proposition.validate_iff_listing hp).1 hvalid
  obtain ⟨tr, htr⟩ := exists_boundTranscript hp hvalid has message
  refine ⟨tr, htr, fun message' p' as' hp' hvalid' has' htr' => ?_,
    fun resolve entropy d s hreal hd hcommitments => ?_,
    fun proof k weight hk hcommitments => ?_⟩
  · exact boundTranscript_injective hp' hvalid' hp hvalid has' has (htr'.trans htr.symm)
  · subst hcommitments
    rw [prove_eq hp, hns, hreal, hd]
    simp only [ProverError.ofTree, htr, Bool.not_true, Bool.false_eq_true, if_false,
      Outcome.ok_bind]
    cases d.respond tr.rootChallenge <;> rfl
  · subst hcommitments
    rw [verify_eq hp, hns, hk]
    simp only [VerificationError.ofTree, Except.mapError, htr, Outcome.ok_bind]

/-- The binding of a run whose proposition asks for one of two leaves of different kinds. -/
theorem boundTranscript_binds_oneOfTwo :
    ∃ tr, boundTranscript [1] (.node (.atLeast 1) [.leaf (.dlog (.zero 32)),
        .leaf (.dhTuple (.zero 32) (.zero 32) (.zero 32) (.zero 32))])
      [.dlog (.zero 32), .dhTuple (.zero 32) (.zero 32)] = .ok tr ∧
      ∀ (message' : Bytes) (p' : Proposition) (as' : List Commitment), p'.NonTrivial →
        p'.validate = .ok () → List.Forall₂ Commitment.Fits p'.leaves as' →
        boundTranscript message' p' as' = .ok tr → message' = [1] ∧
          p' = .node (.atLeast 1) [.leaf (.dlog (.zero 32)),
            .leaf (.dhTuple (.zero 32) (.zero 32) (.zero 32) (.zero 32))] ∧
          as' = [.dlog (.zero 32), .dhTuple (.zero 32) (.zero 32)] := by
  let _ := Suite.residues
  have hfits : List.Forall₂ Commitment.Fits
      [.dlog (.zero 32), .dhTuple (.zero 32) (.zero 32) (.zero 32) (.zero 32)]
      [.dlog (.zero 32), .dhTuple (.zero 32) (.zero 32)] :=
    .cons trivial (.cons trivial .nil)
  obtain ⟨tr, htr, hbinds, -⟩ := boundTranscript_binds (p := .node (.atLeast 1)
    [.leaf (.dlog (.zero 32)), .leaf (.dhTuple (.zero 32) (.zero 32) (.zero 32) (.zero 32))])
    rfl rfl [1] hfits
  exact ⟨tr, htr, hbinds⟩

end Covenant

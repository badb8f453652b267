/-
  FORMAT — the octets of a proof have places that the proposition alone decides.

  The prover writes a tree and the verifier reads it, and each of them works out for itself where a
  challenge or a coefficient stands.  Both go by one layout: a list of slots of 32 octets, some for
  points and some for scalars, that is read off the proposition.

    1. **Layout** — the slots of a proposition in order.  They take up as many octets as
       `Proposition.proofLength` says.
    2. **What is written** takes up these slots, whichever secrets were used: trees of the
       proposition's form do (`ProofTree.length_pieces`), and proving makes no others
       (`conforms_of_commit`).
    3. **What is read**: a reader follows a layout when it gets through exactly on input in which
       the slots are there and the scalars are canonical (`Decoder.Follows`).  The verifier's reader
       follows the proposition's layout, and the sketch it yields is written as it was read.
    4. **Filling in** a sketch that was read completes for every root challenge, with a tree that is
       written the same (`Sketch.exists_propagate`).
-/
import Covenant.Proofs.Codec.Faithful
import Covenant.Proofs.Protocol.Unbroken

namespace Covenant

open Suite

/-- Scalars have no other encodings than those that are written. -/
class Suite.CanonicalScalars [Suite] : Prop where
  encode_of_decode : ∀ (b : Octets 32) (x : Scalar), decodeScalar b = some x → encodeScalar x = b

/-! ## Layout -/

/-- What 32 octets of a proof stand for. -/
inductive Slot
  | point
  | scalar
deriving DecidableEq

/-- How many coefficients a node with `n` children writes. -/
def Connective.coefficientCount (c : Connective) (n : Nat) : Nat :=
  match c with
  | .atLeast _ => c.shareDegree n
  | _ => 0

namespace Proposition

mutual

/-- The slots of a proof; `explicit` tells whether the root's challenge is among them. -/
def layout (explicit : Bool) : Proposition → List Slot
  | .trivial _ => []
  | .leaf (.dlog _) => List.replicate explicit.toNat .scalar ++ [.point, .scalar]
  | .leaf (.dhTuple _ _ _ _) => List.replicate explicit.toNat .scalar ++ [.point, .point, .scalar]
  | .node c cs => List.replicate explicit.toNat .scalar ++
      (List.replicate (c.coefficientCount cs.length) .scalar ++ layoutAll (c == .any) cs)

/-- The slots of the proofs of siblings; under a disjunction all but the last have their
challenge. -/
def layoutAll (disjuncts : Bool) : List Proposition → List Slot
  | [] => []
  | p :: ps => p.layout (disjuncts && !ps.isEmpty) ++ layoutAll disjuncts ps

end

mutual

/-- The number of octets of a proof. -/
def proofLength : Proposition → Nat
  | .trivial _ => 0
  | .leaf (.dlog _) => 64
  | .leaf (.dhTuple _ _ _ _) => 96
  | .node .all cs => proofLengthAll cs
  | .node .any cs => 32 * (cs.length - 1) + proofLengthAll cs
  | .node (.atLeast k) cs => 32 * (cs.length - k) + proofLengthAll cs

/-- The number of octets of the proofs of siblings, without challenges. -/
def proofLengthAll : List Proposition → Nat
  | [] => 0
  | p :: ps => p.proofLength + proofLengthAll ps

end

mutual

theorem length_layout (explicit : Bool) : ∀ {p : Proposition}, p.WellFormed →
    32 * (p.layout explicit).length = 32 * explicit.toNat + p.proofLength
  | .leaf (.dlog _), _ | .leaf (.dhTuple _ _ _ _), _ => by
    simp only [layout, proofLength, List.length_append, List.length_replicate, List.length_cons,
      List.length_nil]
    omega
  | .node c cs, h => by
    have hrest := length_layoutAll (c == .any) h.2
    simp only [layout, List.length_append, List.length_replicate]
    cases c with
    | all =>
      have hnone : (Connective.all == .any).toNat = 0 := rfl
      simp only [Connective.coefficientCount, proofLength, hnone] at hrest ⊢
      omega
    | any =>
      -- all disjuncts but one have their challenge written
      have hone : (Connective.any == .any).toNat = 1 := rfl
      simp only [Connective.coefficientCount, proofLength, hone] at hrest ⊢
      omega
    | atLeast k =>
      have hnone : (Connective.atLeast k == .any).toNat = 0 := rfl
      -- a threshold node writes its coefficients and no challenges below
      have hk : k ≤ cs.length := h.1.required_le
      simp only [Connective.coefficientCount, Connective.shareDegree, Connective.required,
        Nat.min_eq_left hk, proofLength, hnone] at hrest ⊢
      omega

theorem length_layoutAll (disjuncts : Bool) : ∀ {ps : List Proposition}, WellFormedAll ps →
    32 * (layoutAll disjuncts ps).length =
      32 * (disjuncts.toNat * (ps.length - 1)) + proofLengthAll ps
  | [], _ => by simp [layoutAll, proofLengthAll]
  | p :: ps, h => by
    have hfirst := length_layout (disjuncts && !ps.isEmpty) h.1
    have hrest := length_layoutAll disjuncts h.2
    rw [layoutAll, List.length_append, proofLengthAll]
    cases disjuncts <;> cases ps <;> simp at hfirst hrest ⊢ <;> omega

end

end Proposition

section

variable [Suite]

/-! ## What is written -/

namespace ProofTree

mutual

/-- The tree has the proposition's form: at the leaves commitments of the right kinds, at the nodes
as many coefficients as belong there. -/
def Conforms : Proposition → ProofTree → Prop
  | .leaf s, .leaf _ _ a _ => a.Fits s
  | .node c cs, .node c' _ fs ts => c' = c ∧
      (coefficientPieces c fs).length = c.coefficientCount cs.length ∧ ConformsAll cs ts
  | _, _ => False

/-- The trees have the forms of one proposition each. -/
def ConformsAll : List Proposition → List ProofTree → Prop
  | [], [] => True
  | p :: ps, t :: ts => Conforms p t ∧ ConformsAll ps ts
  | _, _ => False

end

theorem ConformsAll.length_eq : ∀ {ps : List Proposition} {ts : List ProofTree},
    ConformsAll ps ts → ts.length = ps.length
  | [], [], _ => rfl
  | _ :: _, _ :: _, h => congrArg (· + 1) (length_eq h.2)

/-- A node that shares its challenge by the rule writes the coefficients that belong there. -/
theorem length_coefficientPieces {c : Connective} {e : Scalar} {fs es : List Scalar}
    (h : c.SharesTo e fs es) :
    (coefficientPieces c fs).length = c.coefficientCount es.length := by
  cases c with
  | all | any => rfl
  | atLeast k => exact (List.length_map _).trans h.1

mutual

theorem Accepting.conforms : ∀ {p : Proposition} {t : ProofTree}, t.Accepting p → t.Conforms p
  | .leaf _, .leaf _ _ _ _, ⟨hs, h⟩ => by
    subst hs
    exact h.fits
  | .node _ _, .node _ _ _ _, ⟨hc, hshares, h⟩ => by
    have hcoefficients := length_coefficientPieces hshares
    rw [List.length_map, h.length_eq] at hcoefficients
    exact ⟨hc, hcoefficients, h.conforms⟩

theorem AcceptingAll.conforms : ∀ {ps : List Proposition} {ts : List ProofTree},
    AcceptingAll ps ts → ConformsAll ps ts
  | [], [], _ => trivial
  | _ :: _, _ :: _, h => ⟨h.1.conforms, h.2.conforms⟩

end

/-- Scalars take up 32 octets each. -/
theorem length_join_scalarPieces (label : String) (xs : List Scalar) :
    (Piece.join (xs.map (scalarPiece label))).length = 32 * xs.length := by
  induction xs with
  | nil => rfl
  | cons x xs ih =>
    simp only [List.map_cons, Piece.join_cons, List.length_append, ih, List.length_cons,
      scalarPiece, Piece.block, (encodeScalar x).2]
    omega

theorem length_join_coefficientPieces (c : Connective) (fs : List Scalar) :
    (Piece.join (coefficientPieces c fs)).length = 32 * (coefficientPieces c fs).length := by
  cases c with
  | all | any => rfl
  | atLeast k =>
    rw [coefficientPieces, length_join_scalarPieces, List.length_map]

/-- The challenge of a tree where it is written. -/
theorem length_join_explicit (explicit : Bool) (e : Scalar) :
    (Piece.join (if explicit then [scalarPiece "e" e] else [])).length = 32 * explicit.toNat := by
  cases explicit with
  | false => rfl
  | true => exact length_join_scalarPieces "e" [e]

omit [Suite] in
/-- A commitment takes up 32 octets for each of its points. -/
theorem length_join_commitment (a : Commitment) :
    (Piece.join a.pieces).length = 32 * a.points.length := by
  cases a with
  | dlog a => simp [Commitment.pieces, Commitment.points, Piece.block, a.2]
  | dhTuple a b => simp [Commitment.pieces, Commitment.points, Piece.block, a.2, b.2]

mutual

/-- **What is written** for a tree of the proposition's form takes up the slots of its layout. -/
theorem length_pieces (explicit : Bool) : ∀ {p : Proposition} {t : ProofTree}, t.Conforms p →
    (Piece.join (t.pieces explicit)).length = 32 * (p.layout explicit).length
  | .leaf s, .leaf _ e a z, h => by
    have hz := length_join_scalarPieces "z" [z]
    rw [List.map_singleton, List.length_singleton] at hz
    rw [pieces, Piece.join_append, Piece.join_append, List.length_append, List.length_append,
      length_join_explicit, length_join_commitment, hz]
    -- a commitment that fits has one point for each equation of its statement
    cases s <;> cases a <;> try cases h
    all_goals
      simp only [Commitment.points, Proposition.layout, List.length_append, List.length_replicate,
        List.length_cons, List.length_nil]
      omega
  | .node c cs, .node _ e fs ts, ⟨hc, hfs, hts⟩ => by
    subst hc
    rw [pieces_node, Piece.join_append, Piece.join_append, List.length_append, List.length_append,
      length_join_explicit, length_join_coefficientPieces, hfs, length_piecesAll _ hts]
    simp only [Proposition.layout, List.length_append, List.length_replicate]
    omega

theorem length_piecesAll (disjuncts : Bool) : ∀ {ps : List Proposition} {ts : List ProofTree},
    ConformsAll ps ts → (Piece.join (piecesAll disjuncts ts)).length =
      32 * (Proposition.layoutAll disjuncts ps).length
  | [], [], _ => rfl
  | p :: ps, t :: ts, h => by
    have hempty : ts.isEmpty = ps.isEmpty := by
      rw [Bool.eq_iff_iff, List.isEmpty_iff_length_eq_zero, List.isEmpty_iff_length_eq_zero,
        h.2.length_eq]
    rw [piecesAll, Piece.join_append, List.length_append, Proposition.layoutAll,
      List.length_append, hempty, length_pieces _ h.1, length_piecesAll disjuncts h.2]
    omega

end

end ProofTree

section

variable [Lawful] {σ : Type} {next : σ → Scalar × σ} {opens : Scalar → Statement → Prop}

mutual

/-- **First moves**, answered for any challenge, end in a tree of the proposition's form, whether
the secrets open their statements or not. -/
theorem conforms_of_commit : ∀ {p : Plan} {e : Scalar} {s s' : σ} {d : Draft} {t : ProofTree},
    p.Ready opens → p.proposition.WellFormed → commit next p s = .ok (d, s') →
      d.respond e = .ok t → t.Conforms p.proposition
  | .leaf st x, e, s, s', d, t, ⟨secret, hx, _⟩, _, hd, ht => by
    subst hx
    simp only [commit, Outcome.bind_eq_ok, Outcome.pure_eq, Except.ok.injEq, Prod.mk.injEq] at hd
    obtain ⟨a, ha, rfl, -⟩ := hd
    cases ht
    exact (st.unbroken_commit? _).1 a ha
  | .node c real ps, e, s, s', d, t, ⟨hreal, hcount, hready⟩, hp, hd, ht => by
    subst hreal
    simp only [commit, Bool.not_true, Bool.false_eq_true, if_false, presetChallenges_eq hcount,
      Outcome.bind_eq_ok, Outcome.pure_eq, Except.ok.injEq, Prod.mk.injEq, Prod.exists] at hd
    obtain ⟨ds, _, hds, rfl, -⟩ := hd
    simp only [Draft.respond, Outcome.bind_eq_ok, Outcome.pure_eq, Except.ok.injEq,
      Prod.exists] at ht
    obtain ⟨es, fs, hsettle, ts, hts, rfl⟩ := ht
    obtain ⟨hchooses, -⟩ := drawChallenges_iff.1 (rfl : drawChallenges next ps s = _)
    obtain ⟨hfinishes, hchallenges⟩ :=
      (Draft.respondAll_iff (Draft.length_of_settle hsettle)).1 hts
    have hconforms := conforms_of_commitAll hready hp.2 hchooses hds hfinishes
    have hlen : ds.length = ps.length := by
      rw [hfinishes.length_eq, hconforms.length_eq, Plan.length_propositionAll]
    -- the challenges chosen before and those settled now are shared by the rule
    have hchosen := chosen_of_commitAll hp.2 hchooses hds
    obtain ⟨hshares, -⟩ := (Draft.settle_iff (by simpa [hlen] using hp.1)
      (by rw [hchosen, hchooses.countP_eq, hcount, hlen])).1 ⟨es, hsettle, hchallenges⟩
    have hcoefficients := ProofTree.length_coefficientPieces hshares
    rw [List.length_map, hconforms.length_eq] at hcoefficients
    exact ⟨rfl, hcoefficients, hconforms⟩

theorem conforms_of_commitAll : ∀ {ps : List Plan} {os : List (Option Scalar)} {s s' : σ}
    {ds : List Draft} {ts : List ProofTree}, Plan.ReadyAll opens ps →
      Proposition.WellFormedAll (Plan.propositionAll ps) → Plan.Chooses ps os →
      commitAll next ps os s = .ok (ds, s') → List.Forall₂ Draft.Finishes ds ts →
      ProofTree.ConformsAll (Plan.propositionAll ps) ts
  | [], _, _, _, _, _, _, _, _, hall, hts => by
    cases hall
    cases hts
    trivial
  | p :: ps, o :: os, s, s', _, _, hready, hp, hos, hall, hts => by
    obtain ⟨ho, hrest⟩ := Plan.Chooses.cons_iff.1 hos
    obtain ⟨d, m, ds, hd, hds, rfl⟩ := commitAll_eq_ok.1 hall
    cases hts with
    | @cons _ t _ ts ht hts =>
      refine ⟨?_, conforms_of_commitAll hready.2 hp.2 hrest hds hts⟩
      -- a child is either real, and answers later, or simulated at once
      rcases (firstMove_eq_ok ho).1 hd with ⟨-, hreal, hd⟩ | ⟨e, t', -, -, ht', rfl⟩
      · exact conforms_of_commit (hready.1 hreal) hp.1 hd ht
      · obtain rfl : t' = t := Except.ok.inj ht
        exact ((simulate_iff hp.1).1 ht').2.1.conforms

end

end

/-- **Every proof has the length of its proposition**, whichever secrets were used. -/
theorem length_of_prove [Lawful] {p : Proposition} (hp : p.NonTrivial)
    {resolve : Statement → Option Scalar} {message : Bytes} {entropy : Octets 32} {proof : Bytes}
    (h : prove p resolve message entropy = .ok proof) : proof.length = p.proofLength := by
  rw [prove_eq hp] at h
  simp only [Outcome.bind_eq_ok, Outcome.check_eq_ok, ProverError.ofTree_eq_ok, Outcome.pure_eq,
    Except.ok.injEq, Prod.exists, Bool.not_eq_true, Bool.not_eq_false'] at h
  obtain ⟨ns, hns, hreal, d, s, hd, tr, -, t, ht, rfl⟩ := h
  have hwell := ((Proposition.validate_eq_ok hp).1
    ((Proposition.validate_iff_listing hp).2 ⟨ns, hns⟩)).1
  have hplan := Plan.proposition_toProve resolve hwell
  -- the form does not depend on the secrets, so readiness asks nothing of them
  have hready : (Plan.toProve resolve p).Ready fun _ _ => True :=
    Plan.ready_polish_mark (fun _ _ _ => trivial) hreal
  have hconforms := conforms_of_commit hready (hplan.symm ▸ hwell) hd ht
  rw [hplan] at hconforms
  have hlength := Proposition.length_layout false hwell
  rw [ProofTree.toBytes, ProofTree.length_pieces false hconforms, hlength, Bool.toNat_false,
    Nat.mul_zero, Nat.zero_add]

/-! ## Slots that can be read -/

/-- The `i`-th 32 octets. -/
def Bytes.slot (b : Bytes) (i : Nat) : Octets 32 := Octets.firstOf 32 (b.drop (32 * i))

/-- The octets hold all slots of a layout, and the scalars among them are canonical. -/
def Legible (l : List Slot) (b : Bytes) : Prop :=
  32 * l.length ≤ b.length ∧
    ∀ i, l[i]? = some .scalar → (decodeScalar (b.slot i)).isSome

theorem legible_nil (b : Bytes) : Legible [] b := ⟨Nat.zero_le _, by simp⟩

/-- Slots follow upon each other. -/
theorem legible_append {l m : List Slot} {b : Bytes} :
    Legible (l ++ m) b ↔ Legible l b ∧ Legible m (b.drop (32 * l.length)) := by
  have hslot (i : Nat) : Bytes.slot (b.drop (32 * l.length)) i = b.slot (l.length + i) := by
    rw [Bytes.slot, List.drop_drop, ← Nat.mul_add, Bytes.slot]
  simp only [Legible, List.length_append, List.length_drop, hslot]
  constructor
  · rintro ⟨hlen, hscalar⟩
    refine ⟨⟨by omega, fun i hi => hscalar i ?_⟩, by omega, fun i hi => hscalar _ ?_⟩
    · rw [List.getElem?_append_left (List.getElem?_eq_some_iff.1 hi).1, hi]
    · rw [List.getElem?_append_right (Nat.le_add_right ..), Nat.add_sub_cancel_left, hi]
  · rintro ⟨⟨hlen, hfirst⟩, hlen', hrest⟩
    refine ⟨by omega, fun i hi => ?_⟩
    -- a slot of the whole lies in the first part or, counted from its end, in the second
    rcases Nat.lt_or_ge i l.length with hlt | hge
    · exact hfirst i (by rwa [List.getElem?_append_left hlt] at hi)
    · obtain ⟨j, rfl⟩ := Nat.exists_eq_add_of_le hge
      rw [List.getElem?_append_right hge, Nat.add_sub_cancel_left] at hi
      exact hrest j hi

theorem legible_singleton {s : Slot} {b : Bytes} : Legible [s] b ↔
    32 ≤ b.length ∧ (s = .scalar → (decodeScalar (Octets.firstOf 32 b)).isSome) := by
  constructor
  · rintro ⟨hlen, h⟩
    exact ⟨hlen, fun hs => h 0 (by rw [hs]; rfl)⟩
  · rintro ⟨hlen, h⟩
    refine ⟨hlen, fun i hi => ?_⟩
    cases i with
    | zero => exact h (Option.some.inj hi)
    | succ i => cases hi

namespace Decoder

variable {α β : Type} {Q : α → Bytes → Prop} {R : β → Bytes → Prop} {l m : List Slot}

/-- The decoder follows a layout: it takes the octets of its slots off the front of the input, and
gets through exactly when they are legible.  `Q` relates what it yields to these octets. -/
structure Follows (d : Decoder α) (l : List Slot) (Q : α → Bytes → Prop) : Prop where
  taken : ∀ {b v r}, d b = .ok (v, r) →
    Legible l b ∧ ∃ c, b = c ++ r ∧ c.length = 32 * l.length ∧ Q v c
  succeeds : ∀ {b}, Legible l b → ∃ v r, d b = .ok (v, r)

namespace Follows

theorem pure {a : α} (h : Q a []) : Follows (Pure.pure a) [] Q where
  taken {b v r} hrun := by
    cases hrun
    exact ⟨legible_nil b, [], rfl, rfl, h⟩
  succeeds {b} _ := ⟨a, b, rfl⟩

theorem bind {x : Decoder α} {f : α → Decoder β} (hx : Follows x l Q)
    (hf : ∀ a c, Q a c → Follows (f a) m fun v c' => R v (c ++ c')) :
    Follows (x >>= f) (l ++ m) R where
  taken {b v r} hrun := by
    obtain ⟨a, b', hfirst, hrest⟩ := bind_eq_ok.1 hrun
    obtain ⟨hl, c, rfl, hc, hq⟩ := hx.taken hfirst
    obtain ⟨hm, c', rfl, hc', hr⟩ := (hf a c hq).taken hrest
    refine ⟨legible_append.2 ⟨hl, ?_⟩, c ++ c', (List.append_assoc ..).symm, ?_, hr⟩
    · rwa [← hc, List.drop_left]
    · rw [List.length_append, List.length_append, hc, hc', Nat.mul_add]
  succeeds {b} h := by
    obtain ⟨hl, hm⟩ := legible_append.1 h
    obtain ⟨a, b', hfirst⟩ := hx.succeeds hl
    obtain ⟨-, c, rfl, hc, hq⟩ := hx.taken hfirst
    rw [← hc, List.drop_left] at hm
    obtain ⟨v, r, hrest⟩ := (hf a c hq).succeeds hm
    exact ⟨v, r, bind_eq_ok.2 ⟨a, b', hfirst, hrest⟩⟩

/-- A step whose result is only wrapped. -/
theorem map {x : Decoder α} {g : α → β} (hx : Follows x l Q) (hg : ∀ a c, Q a c → R (g a) c) :
    Follows (x >>= fun a => Pure.pure (g a)) l R := by
  have h := hx.bind (m := []) fun a c hq => .pure (a := g a) (by simpa using hg a c hq)
  rwa [List.append_nil] at h

theorem octets : Follows (Decoder.octets 32) [.point] fun y c => c = y.1 where
  taken {b y r} hrun := by
    obtain ⟨c, rfl, rfl, -⟩ := Faithful.plain (fun _ => faithful_octets) hrun
    refine ⟨legible_singleton.2 ⟨?_, by simp⟩, y.1, rfl, y.2, rfl⟩
    rw [List.length_append, y.2]
    omega
  succeeds {b} h := by
    have hlen : (b.take 32).length = 32 := by simpa using h.1
    have hreads := reads_octets (⟨b.take 32, hlen⟩ : Octets 32) (b.drop 32)
    rw [List.take_append_drop] at hreads
    exact ⟨_, _, hreads⟩

theorem scalar [CanonicalScalars] :
    Follows Decoder.scalar [.scalar] fun x c => c = (encodeScalar x).1 where
  taken {b x r} hrun := by
    obtain ⟨y, b', hy, hx⟩ := bind_eq_ok.1 hrun
    obtain ⟨hl, c, rfl, hc, rfl⟩ := octets.taken hy
    cases hdecode : decodeScalar y with
    | none => rw [hdecode] at hx; cases hx
    | some x' =>
      rw [hdecode] at hx
      cases hx
      refine ⟨legible_singleton.2 ⟨hl.1, fun _ => ?_⟩, y.1, rfl, hc, ?_⟩
      · rw [Octets.firstOf_append, hdecode]
        rfl
      · rw [CanonicalScalars.encode_of_decode y x hdecode]
  succeeds {b} h := by
    obtain ⟨hlen, hscalar⟩ := legible_singleton.1 h
    -- 32 octets are read for the slot, and they encode a scalar
    obtain ⟨y, r, hy⟩ := octets.succeeds (legible_singleton.2 ⟨hlen, by simp⟩)
    obtain ⟨-, c, rfl, -, rfl⟩ := octets.taken hy
    obtain ⟨x, hx⟩ := Option.isSome_iff_exists.1 (hscalar rfl)
    rw [Octets.firstOf_append] at hx
    refine ⟨x, r, bind_eq_ok.2 ⟨y, r, hy, ?_⟩⟩
    rw [hx]
    rfl

/-- As many scalars as slots. -/
theorem scalars [CanonicalScalars] (label : String) (n : Nat) :
    Follows (Decoder.replicate n Decoder.scalar) (List.replicate n .scalar) fun xs c =>
      c = Piece.join (xs.map (ProofTree.scalarPiece label)) := by
  induction n with
  | zero => exact .pure rfl
  | succ n ih =>
    refine bind (l := [.scalar]) scalar fun x c hc => ih.map fun xs cs hcs => ?_
    subst hc hcs
    rfl

/-- A decoder that follows a layout accepts whole strings of its length with canonical scalars. -/
theorem exactly_iff {d : Decoder α} (h : Follows d l Q) {b : Bytes} :
    (∃ v, d.exactly b = .ok v) ↔ b.length = 32 * l.length ∧
      ∀ i, l[i]? = some .scalar → (decodeScalar (b.slot i)).isSome := by
  simp only [exactly_eq_ok]
  constructor
  · rintro ⟨v, hrun⟩
    obtain ⟨hl, c, rfl, hc, -⟩ := h.taken hrun
    exact ⟨by rw [List.append_nil, hc], hl.2⟩
  · rintro ⟨hlen, hscalar⟩
    obtain ⟨v, r, hrun⟩ := h.succeeds ⟨hlen.ge, hscalar⟩
    obtain ⟨-, c, rfl, hc, -⟩ := h.taken hrun
    rw [List.length_append, hc] at hlen
    obtain rfl : r = [] := List.length_eq_zero_iff.1 (by omega)
    exact ⟨v, hrun⟩

end Follows

end Decoder

/-! ## What is read -/

namespace Sketch

open ProofTree (scalarPiece coefficientPieces)

mutual

/-- A sketch as it is written. -/
def pieces : Sketch → List Piece
  | .leaf _ e a z => e.toList.map (scalarPiece "e") ++ (a.pieces ++ [scalarPiece "z" z])
  | .node c e fs ks => e.toList.map (scalarPiece "e") ++ (coefficientPieces c fs ++ piecesAll ks)

/-- Sketches of siblings as they are written. -/
def piecesAll : List Sketch → List Piece
  | [] => []
  | k :: ks => k.pieces ++ piecesAll ks

end

mutual

/-- The sketch has the proposition's form, with challenges where the layout has them. -/
def OfForm (explicit : Bool) : Proposition → Sketch → Prop
  | .leaf s, .leaf _ e a _ => e.isSome = explicit ∧ a.Fits s
  | .node c cs, .node c' e _ ks => c' = c ∧ e.isSome = explicit ∧ OfFormAll (c == .any) cs ks
  | _, _ => False

/-- The sketches have the forms of one proposition each. -/
def OfFormAll (disjuncts : Bool) : List Proposition → List Sketch → Prop
  | [], [] => True
  | p :: ps, k :: ks => OfForm (disjuncts && !ps.isEmpty) p k ∧ OfFormAll disjuncts ps ks
  | _, _ => False

end

theorem OfFormAll.length_eq {disjuncts : Bool} : ∀ {ps : List Proposition} {ks : List Sketch},
    OfFormAll disjuncts ps ks → ks.length = ps.length
  | [], [], _ => rfl
  | _ :: _, _ :: _, h => congrArg (· + 1) (length_eq h.2)

theorem OfForm.isSome_challenge? {explicit : Bool} : ∀ {p : Proposition} {k : Sketch},
    OfForm explicit p k → k.challenge?.isSome = explicit
  | .leaf _, .leaf _ _ _ _, h => h.1
  | .node _ _, .node _ _ _ _, h => h.2.1

mutual

/-- The commitments of a sketch are of the kinds of the statements. -/
theorem OfForm.fits {explicit : Bool} : ∀ {p : Proposition} {k : Sketch}, OfForm explicit p k →
    List.Forall₂ Commitment.Fits p.leaves k.commitments
  | .leaf _, .leaf _ _ _ _, h => .cons h.2 .nil
  | .node _ _, .node _ _ _ _, h => h.2.2.fits

theorem OfFormAll.fits {disjuncts : Bool} : ∀ {ps : List Proposition} {ks : List Sketch},
    OfFormAll disjuncts ps ks →
      List.Forall₂ Commitment.Fits (Proposition.leavesAll ps) (commitmentsAll ks)
  | [], [], _ => .nil
  | _ :: _, _ :: _, h => List.rel_append h.1.fits h.2.fits

end

theorem follows_explicitChallenge [CanonicalScalars] (explicit : Bool) :
    (explicitChallenge explicit).Follows (List.replicate explicit.toNat .scalar) fun e c =>
      c = Piece.join (e.toList.map (scalarPiece "e")) ∧ e.isSome = explicit := by
  cases explicit with
  | false => exact .pure ⟨rfl, rfl⟩
  | true =>
    refine Decoder.Follows.scalar.map fun x c hc => ⟨?_, rfl⟩
    rw [hc, Option.toList_some, List.map_singleton, Piece.join_cons, Piece.join_nil,
      List.append_nil]
    rfl

theorem follows_coefficients [CanonicalScalars] (c : Connective) (n : Nat) :
    (coefficients c n).Follows (List.replicate (c.coefficientCount n) .scalar) fun fs b =>
      b = Piece.join (coefficientPieces c fs) := by
  cases c with
  | all | any => exact .pure rfl
  | atLeast k => exact .scalars "c" _

mutual

/-- **What is read** for a proposition stands in the slots of its layout, and the sketch is written
as it was read. -/
theorem follows_decoder [CanonicalScalars] (explicit : Bool) : ∀ {p : Proposition}, p.WellFormed →
    (decoder explicit p).Follows (p.layout explicit) fun k c =>
      c = Piece.join k.pieces ∧ k.OfForm explicit p
  | .leaf (.dlog y), _ => by
    refine (follows_explicitChallenge explicit).bind fun e c ⟨hc, he⟩ => ?_
    refine Decoder.Follows.bind (l := [.point]) (Q := fun a c => c = Piece.join a.pieces ∧
      a.Fits (.dlog y)) (Decoder.Follows.octets.map fun a c ha => ⟨?_, trivial⟩)
      fun a c' ⟨hc', ha⟩ => Decoder.Follows.scalar.map fun z c'' hc'' => ⟨?_, he, ha⟩
    · simp [ha, Commitment.pieces, Commitment.points, Piece.block]
    · subst hc hc' hc''
      simp [pieces, ProofTree.scalarPiece, Piece.block]
  | .leaf (.dhTuple g h u v), _ => by
    refine (follows_explicitChallenge explicit).bind fun e c ⟨hc, he⟩ => ?_
    refine Decoder.Follows.bind (l := [.point, .point]) (Q := fun a c => c = Piece.join a.pieces ∧
      a.Fits (.dhTuple g h u v)) (Decoder.Follows.octets.bind (m := [.point]) fun a c ha =>
        Decoder.Follows.octets.map fun b c' hb => ⟨?_, trivial⟩)
      fun a c' ⟨hc', ha⟩ => Decoder.Follows.scalar.map fun z c'' hc'' => ⟨?_, he, ha⟩
    · simp [ha, hb, Commitment.pieces, Commitment.points, Piece.block]
    · subst hc hc' hc''
      simp [pieces, ProofTree.scalarPiece, Piece.block]
  | .node c cs, h => by
    -- challenge, coefficients, children: the order of the layout
    refine (follows_explicitChallenge explicit).bind fun e b ⟨hb, he⟩ =>
      (follows_coefficients c cs.length).bind fun fs b' hb' =>
        (follows_decoderAll (c == .any) h.2).map fun ks b'' ⟨hb'', hks⟩ => ⟨?_, rfl, he, hks⟩
    subst hb hb' hb''
    rw [pieces, Piece.join_append, Piece.join_append]

theorem follows_decoderAll [CanonicalScalars] (disjuncts : Bool) : ∀ {ps : List Proposition},
    Proposition.WellFormedAll ps →
      (decoderAll disjuncts ps).Follows (Proposition.layoutAll disjuncts ps) fun ks c =>
        c = Piece.join (piecesAll ks) ∧ OfFormAll disjuncts ps ks
  | [], _ => .pure ⟨rfl, trivial⟩
  | p :: ps, h => by
    refine (follows_decoder _ h.1).bind fun k c ⟨hc, hk⟩ =>
      (follows_decoderAll disjuncts h.2).map fun ks c' ⟨hc', hks⟩ => ⟨?_, hk, hks⟩
    subst hc hc'
    rw [piecesAll, Piece.join_append]

end

/-! ## Filling in -/

/-- Where no challenge is written, any may be given. -/
theorem agree_of_none {ks : List Sketch} {es : List Scalar} (hlen : es.length = ks.length)
    (h : ∀ k ∈ ks, k.challenge? = none) : Agree (ks.map challenge?) es := by
  have hnone : ks.map challenge? = List.replicate ks.length none :=
    List.eq_replicate_iff.2 ⟨List.length_map _, List.forall_mem_map.2 h⟩
  rw [hnone, Agree, List.forall₂_iff_get]
  refine ⟨by simp [hlen], fun i _ _ x hx => ?_⟩
  simp at hx

theorem OfFormAll.challenge?_eq_none : ∀ {ps : List Proposition} {ks : List Sketch},
    OfFormAll false ps ks → ∀ k ∈ ks, k.challenge? = none
  | [], [], _ => by simp
  | _ :: _, _ :: _, h => List.forall_mem_cons.2
      ⟨by simpa using h.1.isSome_challenge?, challenge?_eq_none h.2⟩

/-- Disjuncts get the challenges that are written for them, and the last one the rest. -/
theorem OfFormAll.exists_disjunctChallenges : ∀ {ps : List Proposition} {ks : List Sketch}
    (e : Scalar), OfFormAll true ps ks →
      ∃ es, disjunctChallenges e ks = .ok es ∧ Agree (ks.map challenge?) es
  | [], [], _, _ => ⟨[], rfl, .nil⟩
  | [_], [k], e, h => by
    have hnone : k.challenge? = none := by simpa using h.1.isSome_challenge?
    exact ⟨[e], rfl, .cons (by simp [hnone]) .nil⟩
  | _ :: p :: ps, k :: k' :: ks, e, h => by
    obtain ⟨x, hx⟩ := Option.isSome_iff_exists.1 h.1.isSome_challenge?
    obtain ⟨es, hes, hagree⟩ := exists_disjunctChallenges (e - x) h.2
    refine ⟨x :: es, ?_, .cons (by simp [hx]) hagree⟩
    simp only [disjunctChallenges, hx, hes, Outcome.ok_bind]
    rfl

theorem OfFormAll.exists_childChallenges {c : Connective} {ps : List Proposition}
    {ks : List Sketch} (h : OfFormAll (c == .any) ps ks) (e : Scalar) (fs : List Scalar) :
    ∃ es, childChallenges c e fs ks = .ok es ∧ Agree (ks.map challenge?) es := by
  cases c with
  | all => exact ⟨_, rfl, agree_of_none (by simp) h.challenge?_eq_none⟩
  | any => exact h.exists_disjunctChallenges e
  | atLeast k => exact ⟨_, rfl, agree_of_none (by simp) h.challenge?_eq_none⟩

/-- A challenge is written where it is explicit, and then it is the one that was read. -/
theorem explicit_pieces {explicit : Bool} {o : Option Scalar} {e : Scalar}
    (ho : o.isSome = explicit) (he : ∀ x, o = some x → x = e) :
    (if explicit then [scalarPiece "e" e] else []) = o.toList.map (scalarPiece "e") := by
  subst ho
  cases o with
  | none => rfl
  | some x =>
    obtain rfl := he x rfl
    rfl

theorem length_of_propagateAll : ∀ {ks : List Sketch} {es : List Scalar} {ts : List ProofTree},
    propagateAll ks es = .ok ts → ts.length = ks.length
  | [], _, _, h => by cases h; rfl
  | _ :: _, _ :: _, _, h => by
    simp only [propagateAll, Outcome.bind_eq_ok, Outcome.pure_eq, Except.ok.injEq] at h
    obtain ⟨_, _, _, hrest, rfl⟩ := h
    exact congrArg (· + 1) (length_of_propagateAll hrest)

mutual

/-- **Filling in** a sketch of the proposition's form never misses a challenge, and the tree is
written as the sketch was read. -/
theorem exists_propagate {explicit : Bool} : ∀ {p : Proposition} {k : Sketch} {e : Scalar},
    k.OfForm explicit p → (∀ x, k.challenge? = some x → x = e) →
      ∃ t, k.propagate e = .ok t ∧ t.pieces explicit = k.pieces
  | .leaf _, .leaf s o a z, e, h, he => by
    refine ⟨_, rfl, ?_⟩
    rw [ProofTree.pieces, pieces, explicit_pieces h.1 he, List.append_assoc]
  | .node _ cs, .node c o fs ks, e, ⟨hc, ho, hks⟩, he => by
    subst hc
    obtain ⟨es, hes, hagree⟩ := hks.exists_childChallenges e fs
    obtain ⟨ts, hts, hpieces⟩ := exists_propagateAll hks hagree
    refine ⟨.node c e fs ts, ?_, ?_⟩
    · simp only [propagate, hes, hts, Outcome.ok_bind]
      rfl
    · rw [ProofTree.pieces_node, pieces, explicit_pieces ho he, hpieces]

theorem exists_propagateAll {disjuncts : Bool} : ∀ {ps : List Proposition} {ks : List Sketch}
    {es : List Scalar}, OfFormAll disjuncts ps ks → Agree (ks.map challenge?) es →
      ∃ ts, propagateAll ks es = .ok ts ∧ ProofTree.piecesAll disjuncts ts = piecesAll ks
  | [], [], _, _, _ => ⟨[], rfl, rfl⟩
  | p :: ps, k :: ks, e :: es, h, hagree => by
    obtain ⟨hfirst, hrest⟩ := List.forall₂_cons.1 hagree
    obtain ⟨t, ht, hpieces⟩ := exists_propagate h.1 hfirst
    obtain ⟨ts, hts, hpiecesAll⟩ := exists_propagateAll h.2 hrest
    have hempty : ts.isEmpty = ps.isEmpty := by
      rw [Bool.eq_iff_iff, List.isEmpty_iff_length_eq_zero, List.isEmpty_iff_length_eq_zero,
        length_of_propagateAll hts, h.2.length_eq]
    refine ⟨t :: ts, ?_, ?_⟩
    · simp only [propagateAll, ht, hts, Outcome.ok_bind]
      rfl
    · rw [ProofTree.piecesAll, hempty, hpieces, hpiecesAll, piecesAll]

end

end Sketch

end

/-! ## Verifying -/

/-- The verdict on a finished tree does not blame its shape. -/
theorem ProofTree.judge_outcome [Suite] (weight : Nat → Scalar) (t : ProofTree) :
    t.judge weight = .ok () ∨ t.judge weight = .error .invalidProof := by
  unfold judge
  split
  · exact .inr rfl
  · split
    · exact .inl rfl
    · exact .inr rfl

namespace Proposition

/-- **The proof format.**  The slots of a valid proposition take up as many octets as all of its
proofs have, whichever secrets were used.  A string of octets can be read as a proof exactly when
it has this length and its scalars are canonical; then filling in completes for every root
challenge and gives a tree that is written as the same octets.  So a verifier blames the equations
or the octets, and never the tree. -/
theorem proof_format [Suite] [Lawful] [CanonicalScalars] {p : Proposition} (hp : p.NonTrivial)
    (hvalid : p.validate = .ok ()) :
    32 * (p.layout false).length = p.proofLength ∧
    (∀ (resolve : Statement → Option Scalar) (message : Bytes) (entropy : Octets 32)
      (proof : Bytes), prove p resolve message entropy = .ok proof →
        proof.length = p.proofLength) ∧
    (∀ b : Bytes, (∃ k, (Sketch.decoder false p).exactly b = .ok k) ↔
      b.length = p.proofLength ∧
        ∀ i, (p.layout false)[i]? = some .scalar → (decodeScalar (b.slot i)).isSome) ∧
    (∀ (b : Bytes) (k : Sketch), (Sketch.decoder false p).exactly b = .ok k →
      ∀ e, ∃ t, k.propagate e = .ok t ∧ t.toBytes = b) ∧
    ∀ (b message : Bytes) (weight : Nat → Scalar),
      verify p b message weight = .ok () ∨ verify p b message weight = .error .invalidProof ∨
        ∃ c, verify p b message weight = .error (.malformedProof c) := by
  have hwell := ((validate_eq_ok hp).1 hvalid).1
  have hlength : 32 * (p.layout false).length = p.proofLength := by
    simpa using length_layout false hwell
  have hfollows := Sketch.follows_decoder false hwell
  have hform {b : Bytes} {k : Sketch} (h : (Sketch.decoder false p).exactly b = .ok k) :
      b = Piece.join k.pieces ∧ k.OfForm false p := by
    obtain ⟨-, c, hb, -, hc, hk⟩ := hfollows.taken (Decoder.exactly_eq_ok.1 h)
    exact ⟨by rw [hb, List.append_nil, hc], hk⟩
  -- no challenge is written for the root, so any may be filled in
  have hfill {b : Bytes} {k : Sketch} (h : (Sketch.decoder false p).exactly b = .ok k)
      (e : Scalar) : ∃ t, k.propagate e = .ok t ∧ t.toBytes = b := by
    obtain ⟨hb, hk⟩ := hform h
    have hnone : k.challenge? = none := by simpa using hk.isSome_challenge?
    obtain ⟨t, ht, hpieces⟩ := Sketch.exists_propagate hk (e := e) (by simp [hnone])
    exact ⟨t, ht, by rw [ProofTree.toBytes, hpieces, hb]⟩
  refine ⟨hlength, fun _ _ _ _ => length_of_prove hp, fun b => ?_, fun _ _ => hfill,
    fun b message weight => ?_⟩
  · rw [hfollows.exactly_iff, hlength]
  · obtain ⟨ns, hns⟩ := (validate_iff_listing hp).1 hvalid
    rw [verify_eq hp, hns]
    -- listing, transcript and filling in succeed, which leaves the octets and the equations to blame
    cases hk : (Sketch.decoder false p).exactly b with
    | error c => exact .inr (.inr ⟨c, rfl⟩)
    | ok k =>
      obtain ⟨tr, htr⟩ := exists_boundTranscript hp hvalid (hform hk).2.fits message
      obtain ⟨t, ht, -⟩ := hfill hk tr.rootChallenge
      simp only [VerificationError.ofTree, Except.mapError, Outcome.ok_bind, htr, ht]
      exact (t.judge_outcome weight).imp_right .inl

section

attribute [local instance] Suite.residues Suite.lawful_residues

instance canonicalScalars_residues : CanonicalScalars :=
  ⟨fun _ _ => residueName_of_residueOf⟩

/-- Two of three, one of them a disjunction: a coefficient, a challenge, and 32 octets for each
commitment and answer. -/
theorem proof_format_twoOfThree : twoOfThree.NonTrivial ∧ twoOfThree.validate = .ok () ∧
    twoOfThree.proofLength = 352 ∧ twoOfThree.layout false =
      [.scalar, .point, .scalar, .scalar, .point, .point, .scalar, .point, .scalar, .point,
        .scalar] ∧
    (∀ b : Bytes, (∃ k, (Sketch.decoder false twoOfThree).exactly b = .ok k) ↔
      b.length = 352 ∧
        ∀ i, (twoOfThree.layout false)[i]? = some .scalar → (decodeScalar (b.slot i)).isSome) ∧
    ∀ proof, prove twoOfThree knowsTwo [1] (.zero 32) = .ok proof → proof.length = 352 := by
  have hformat := proof_format (p := twoOfThree) rfl rfl
  exact ⟨rfl, rfl, rfl, rfl, hformat.2.2.1, hformat.2.1 knowsTwo [1] (.zero 32)⟩

end

end Proposition

end Covenant

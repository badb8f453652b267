/-
  UNBROKEN — proving a valid proposition never ends in a broken rule of its tree.

  Most defects of a tree have nothing to do with the proposition at hand: a simulated node without
  a challenge, a disjunction without a real child, a leaf without a commitment.  They stand where
  the prover relies on what its earlier passes did.  Here it may: whatever secrets were found, sound
  or not, and whatever the supply of scalars.  A proof attempt may still fail for want of a secret,
  at a point that does not decode, or at an interpolation.

  1. **`Unbroken x Q`** — `x` does not report a broken rule, and what it returns satisfies `Q`.
  2. **Simulation** — a node has a challenge for every child, and every leaf gets a commitment of
     its kind (`unbroken_simulate`).
  3. **First moves and answers** — so for a plan with as many real children at every real node as
     its connective requires (`unbroken_commit`).
  4. **`unbroken_prove`** — polishing leaves such a plan, and the transcript of commitments of the
     right kinds exists.
-/
import Covenant.Proofs.Protocol.Completeness
import Covenant.Proofs.Protocol.Folding

namespace Covenant

open Suite

/-! ## Attempts that do not report a broken rule -/

/-- The attempt does not report a broken rule, and what it returns satisfies `Q`. -/
def Unbroken {α : Type} (x : Except ProverError α) (Q : α → Prop) : Prop :=
  (∀ a, x = .ok a → Q a) ∧ ∀ d, x ≠ .error (.malformedTree d)

namespace Unbroken

variable {α β : Type} {Q : α → Prop} {R : β → Prop}

theorem ok {a : α} (h : Q a) : Unbroken (.ok a) Q := by
  refine ⟨?_, fun d => by simp⟩
  rintro _ ⟨⟩
  exact h

theorem fail {e : ProverError} (h : ∀ d, e ≠ .malformedTree d) :
    Unbroken (.error e : Except ProverError α) Q :=
  ⟨fun a => by simp, fun d => by simpa using h d⟩

theorem bind {x : Except ProverError α} {f : α → Except ProverError β} (hx : Unbroken x Q)
    (hf : ∀ a, Q a → Unbroken (f a) R) : Unbroken (x >>= f) R := by
  cases x with
  | ok a => exact hf a (hx.1 a rfl)
  | error e => exact fail fun d h => hx.2 d (by rw [h])

/-- What is returned may be used to show more of it. -/
theorem imp {R : α → Prop} {x : Except ProverError α} (hx : Unbroken x Q)
    (h : ∀ a, x = .ok a → Q a → R a) : Unbroken x R :=
  ⟨fun a ha => h a ha (hx.1 a ha), hx.2⟩

theorem map {x : Except ProverError α} {f : α → β} (hx : Unbroken x Q) (hf : ∀ a, Q a → R (f a)) :
    Unbroken (x.map f) R := by
  cases x with
  | ok a => exact ok (hf a (hx.1 a rfl))
  | error e => exact fail fun d h => hx.2 d (by rw [h])

/-- What is known to succeed. -/
theorem of_eq_ok {x : Except TreeDefect α} {a : α} (h : x = .ok a) :
    Unbroken (ProverError.ofTree x) (· = a) := by
  subst h
  exact ok rfl

end Unbroken

variable [Suite]

/-! ## Leaves -/

namespace Statement

theorem unbroken_tuplePoint? (b : PointName) : Unbroken (tuplePoint? b) fun _ => True := by
  unfold tuplePoint?
  split
  · exact .fail (by simp)
  · exact .ok trivial

/-- A commitment is of its statement's kind. -/
theorem unbroken_commit? (r : Scalar) (s : Statement) :
    Unbroken (s.commit? r) fun a => a.Fits s := by
  cases s with
  | dlog y => exact .ok trivial
  | dhTuple g h u v =>
    exact .bind (unbroken_tuplePoint? g) fun _ _ => .bind (unbroken_tuplePoint? h) fun _ _ =>
      .bind (unbroken_tuplePoint? u) fun _ _ => .bind (unbroken_tuplePoint? v) fun _ _ =>
        .ok trivial

/-- So is one that was made without a secret. -/
theorem unbroken_simulate? (e z : Scalar) (s : Statement) :
    Unbroken (s.simulate? e z) fun a => a.Fits s := by
  cases s with
  | dlog y =>
    simp only [simulate?]
    split
    · exact .fail (by simp)
    · exact .ok trivial
  | dhTuple g h u v =>
    exact .bind (unbroken_tuplePoint? g) fun _ _ => .bind (unbroken_tuplePoint? h) fun _ _ =>
      .bind (unbroken_tuplePoint? u) fun _ _ => .bind (unbroken_tuplePoint? v) fun _ _ =>
        .ok trivial

end Statement

/-! ## Simulation -/

section

variable {σ : Type} (next : σ → Scalar × σ)

mutual

/-- Simulation never misses a challenge. -/
theorem unbroken_simulate : ∀ (p : Plan) (e : Scalar) (s : σ), Unbroken (simulate next p e s)
    fun x => List.Forall₂ Commitment.Fits p.proposition.leaves x.1.commitments
  | .leaf st _, _, _ => .bind (st.unbroken_simulate? _ _) fun _ ha => .ok (.cons ha .nil)
  | .node c _ ps, e, s =>
    .bind (unbroken_simulateAll ps _ _ (length_shareChallenge next c ps.length e s)) fun _ hts =>
      .ok hts

theorem unbroken_simulateAll : ∀ (ps : List Plan) (es : List Scalar) (s : σ),
    es.length = ps.length → Unbroken (simulateAll next ps es s) fun x =>
      List.Forall₂ Commitment.Fits (Proposition.leavesAll (Plan.propositionAll ps))
        (ProofTree.commitmentsAll x.1)
  | [], _, _, _ => .ok .nil
  | p :: ps, e :: es, s, hlen =>
    .bind (unbroken_simulate p e s) fun x ht =>
      .bind (unbroken_simulateAll ps es x.2 (Nat.succ.inj hlen)) fun _ hts =>
        .ok (List.rel_append ht hts)

end

end

/-! ## First moves and answers -/

namespace Draft

/-- Settling asks of a disjunction only that one child is open. -/
theorem unbroken_settle {c : Connective} {n : Nat} {ds : List Draft} (e : Scalar)
    (hopen : (chosen ds).countP Option.isNone = c.required n) :
    Unbroken (settle c e ds) fun x => x.1.length = ds.length := by
  refine ⟨fun ⟨es, fs⟩ hx => length_of_settle hx, fun d h => ?_⟩
  cases c with
  | all => cases h
  | any =>
    rw [settle, if_neg (not_all_chosen hopen)] at h
    cases h
  | atLeast k =>
    simp only [settle] at h
    split at h <;> cases h

/-- The draft has commitments of the right kinds, and answering it breaks no rule. -/
structure Answerable (p : Plan) (d : Draft) : Prop where
  fits : List.Forall₂ Commitment.Fits p.proposition.leaves d.commitments
  respond : ∀ e, Unbroken (d.respond e) fun _ => True

/-- So do the drafts of siblings, of which as many are open as are real. -/
structure AnswerableAll (ps : List Plan) (ds : List Draft) : Prop where
  fits : List.Forall₂ Commitment.Fits (Proposition.leavesAll (Plan.propositionAll ps))
    (commitmentsAll ds)
  opened : (chosen ds).countP Option.isNone = ps.countP Plan.isReal
  respond : ∀ es : List Scalar, es.length = ds.length →
    Unbroken (respondAll ds es) fun _ => True

theorem AnswerableAll.nil : AnswerableAll [] [] := ⟨.nil, rfl, fun _ _ => .ok trivial⟩

theorem AnswerableAll.cons {p : Plan} {d : Draft} {ps : List Plan} {ds : List Draft}
    (hd : d.Answerable p) (hopen : d.challenge?.isNone = p.isReal) (hds : AnswerableAll ps ds) :
    AnswerableAll (p :: ps) (d :: ds) where
  fits := List.rel_append hd.fits hds.fits
  opened := by
    have hrest := hds.opened
    rw [chosen] at hrest ⊢
    rw [List.map_cons, List.countP_cons, List.countP_cons, hrest, hopen]
  respond es hlen := by
    obtain ⟨e, es, rfl⟩ := List.exists_cons_of_length_eq_add_one hlen
    exact .bind (hd.respond e) fun _ _ =>
      .bind (hds.respond es (Nat.succ.inj hlen)) fun _ _ => .ok trivial

/-- A node can be answered when as many of its children are open as it requires. -/
theorem AnswerableAll.node {c : Connective} {ps : List Plan} {ds : List Draft}
    (h : AnswerableAll ps ds) (hcount : ps.countP Plan.isReal = c.required ps.length) :
    (Draft.node c ds).Answerable (.node c true ps) where
  fits := h.fits
  respond e := .bind (unbroken_settle e (h.opened.trans hcount)) fun x hlen =>
    .bind (h.respond x.1 hlen) fun _ _ => .ok trivial

end Draft

section

variable {σ : Type} (next : σ → Scalar × σ) {opens : Scalar → Statement → Prop}

mutual

/-- **First moves** of a plan that can be followed break no rule, and neither do the answers. -/
theorem unbroken_commit : ∀ (p : Plan) (s : σ), p.Ready opens →
    Unbroken (commit next p s) fun x => x.1.Answerable p
  | .leaf st x, s, ⟨secret, hx, _⟩ => by
    subst hx
    exact .bind (st.unbroken_commit? _) fun a ha => .ok ⟨.cons ha .nil, fun e => .ok trivial⟩
  | .node c real ps, s, ⟨hreal, hcount, hready⟩ => by
    obtain ⟨hchooses, -⟩ := drawChallenges_iff.1 (rfl : drawChallenges next ps s = _)
    subst hreal
    -- as many children are real as are required, so none of them is given up
    simp only [commit, Bool.not_true, Bool.false_eq_true, if_false, presetChallenges_eq hcount]
    exact .bind (unbroken_commitAll ps _ _ hready hchooses) fun _ h => .ok (h.node hcount)

theorem unbroken_commitAll : ∀ (ps : List Plan) (os : List (Option Scalar)) (s : σ),
    Plan.ReadyAll opens ps → Plan.Chooses ps os →
      Unbroken (commitAll next ps os s) fun x => Draft.AnswerableAll ps x.1
  | [], _, _, _, _ => .ok .nil
  | p :: ps, o :: os, s, hready, hos => by
    obtain ⟨ho, hrest⟩ := Plan.Chooses.cons_iff.1 hos
    have hfirst : Unbroken (firstMove next p o s) fun x =>
        x.1.Answerable p ∧ x.1.challenge?.isNone = p.isReal := by
      unfold firstMove
      -- a real child moves and stays open; a simulated one has the challenge it was given
      split
      · rename_i hreal
        refine (unbroken_commit p s (hready.1 hreal)).imp fun x hx h => ⟨h, ?_⟩
        rw [challenge?_of_commit hx, hreal]
        rfl
      · rename_i hreal
        cases o with
        | none => exact absurd ho.symm hreal
        | some e =>
          exact (unbroken_simulate next p e s).map fun x h =>
            ⟨⟨h, fun _ => .ok trivial⟩, (Bool.eq_false_iff.2 hreal).symm⟩
    rw [commitAll_cons]
    exact .bind hfirst fun x h => .bind (unbroken_commitAll ps os x.2 hready.2 hrest) fun _ h' =>
      .ok (.cons h.1 h.2 h')

end

end

/-! ## Proving -/

/-- **Proving a valid proposition breaks no rule**, whatever secrets are found. -/
theorem unbroken_prove {p : Proposition} (hvalid : p.validate = .ok ())
    (resolve : Statement → Option Scalar) (message : Bytes) (entropy : Octets 32) :
    Unbroken (prove p resolve message entropy) fun _ => True := by
  by_cases hp : p.NonTrivial
  · obtain ⟨ns, hns⟩ := (Proposition.validate_iff_listing hp).1 hvalid
    have hwell := ((Proposition.validate_eq_ok hp).1 hvalid).1
    rw [prove_eq hp]
    refine .bind (.of_eq_ok hns) fun _ _ => ?_
    cases hreal : (Plan.mark resolve p).isReal with
    | false => exact .fail (by simp)
    | true =>
      have hready : (Plan.toProve resolve p).Ready fun _ _ => True :=
        Plan.ready_polish_mark (fun _ _ _ => trivial) hreal
      refine .bind (unbroken_commit nextNonce _ _ hready) fun x h => ?_
      -- the plan is one of `p`, so the commitments fit where the transcript writes them
      have hfits : List.Forall₂ Commitment.Fits p.leaves x.1.commitments :=
        Plan.proposition_toProve resolve hwell ▸ h.fits
      obtain ⟨tr, htr⟩ := exists_boundTranscript hp hvalid hfits message
      exact .bind (.of_eq_ok htr) fun _ _ => .bind (h.respond _) fun _ _ => .ok trivial
  · cases p with
    | leaf | node => exact absurd rfl hp
    | trivial b =>
      cases b with
      | true => exact .ok trivial
      | false => exact .fail (by simp)

end Covenant

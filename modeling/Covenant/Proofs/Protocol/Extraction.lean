/-
  EXTRACTION — commitments that serve for two messages give the secrets away.

  A prover draws its commitments anew for every message.  Here is what an onlooker learns from two
  proofs of one proposition in which they are the same and the challenges are not.

  1. **What passes** — a proof that passes under all weights is one whose tree, filled in from the
     root challenge, is accepting (`forall_verify_iff`).  So everything that holds of accepting
     trees holds of the octets that a verifier lets through.
  2. **The extractor** — `ProofTree.extracted` goes through the leaves of two trees and computes a
     secret at each that has two challenges.  All it finds opens its statement
     (`sound_extracted`), and by the descent it finds enough (`satisfies_extracted`).
  3. **`forgery_of_reuse`** — the onlooker needs no other secrets to prove the proposition over any
     message.
-/
import Covenant.Proofs.Codec.Faithful
import Covenant.Proofs.Protocol.Batching
import Covenant.Proofs.Protocol.Completeness

namespace Covenant

open Suite

section

variable [Suite]

/-! ## What passes -/

/-- The tree that the verifier fills in for a proof. -/
def finishedTree (p : Proposition) (proof message : Bytes) :
    Except VerificationError ProofTree := do
  let k ← ((Sketch.decoder false p).exactly proof).mapError .malformedProof
  let tr ← VerificationError.ofTree (boundTranscript message p k.commitments)
  VerificationError.ofTree (k.propagate tr.rootChallenge)

theorem verify_eq_judge {p : Proposition} (hp : p.NonTrivial) (hvalid : p.validate = .ok ())
    (proof message : Bytes) (weight : Nat → Scalar) :
    verify p proof message weight = finishedTree p proof message >>= ProofTree.judge weight := by
  obtain ⟨ns, hns⟩ := (Proposition.validate_iff_listing hp).1 hvalid
  rw [verify_eq hp, hns]
  simp only [finishedTree, VerificationError.ofTree, Outcome.ok_bind, bind_assoc]

/-- A tree that was filled in comes from a sketch that was read for the proposition. -/
theorem finishedTree_eq_ok {p : Proposition} {proof message : Bytes} {t : ProofTree} :
    finishedTree p proof message = .ok t ↔ ∃ k tr, (Sketch.decoder false p).exactly proof = .ok k ∧
      boundTranscript message p k.commitments = .ok tr ∧
        k.propagate tr.rootChallenge = .ok t := by
  have hofTree {α : Type} {x : Except TreeDefect α} {a : α} :
      VerificationError.ofTree x = .ok a ↔ x = .ok a := by
    cases x <;> simp [VerificationError.ofTree]
  have hmapError {x : Except CodecError Sketch} {k : Sketch} :
      x.mapError VerificationError.malformedProof = .ok k ↔ x = .ok k := by
    cases x <;> simp [Except.mapError]
  simp only [finishedTree, Outcome.bind_eq_ok, hofTree, hmapError, exists_and_left]

variable [Lawful]

/-- The verdict is favourable under all weights exactly when the equations hold. -/
theorem ProofTree.forall_judge_iff {t : ProofTree} :
    (∀ weight, t.judge weight = .ok ()) ↔ t.EquationsHold := by
  unfold judge EquationsHold
  cases t.equations? with
  | none => simp
  | some qs => simp [← Equation.forall_allHold_iff]

/-- **What passes** under all weights is a proof whose tree is accepting. -/
theorem forall_verify_iff {p : Proposition} (hp : p.NonTrivial) (hvalid : p.validate = .ok ())
    {proof message : Bytes} : (∀ weight, verify p proof message weight = .ok ()) ↔
      ∃ t, finishedTree p proof message = .ok t ∧ t.Accepting p := by
  simp only [verify_eq_judge hp hvalid, Outcome.bind_eq_ok]
  constructor
  · intro hall
    obtain ⟨t, ht, -⟩ := hall fun _ => 0
    have hjudge (weight : Nat → Scalar) : t.judge weight = .ok () := by
      obtain ⟨t', ht', hweight⟩ := hall weight
      cases ht.symm.trans ht'
      exact hweight
    -- what was read fills the proposition, so the equations make its tree accepting
    obtain ⟨k, tr, hk, -, hpropagate⟩ := finishedTree_eq_ok.1 ht
    have hwell := ((Proposition.validate_eq_ok hp).1 hvalid).1
    have hfills := Sketch.fills_of_decoder false hwell (Decoder.exactly_eq_ok.1 hk)
    exact ⟨t, ht, (Sketch.accepting_of_propagate hwell hfills hpropagate
      (ProofTree.forall_judge_iff.1 hjudge)).1⟩
  · rintro ⟨t, ht, haccepting⟩ weight
    exact ⟨t, ht, ProofTree.forall_judge_iff.2 haccepting.equationsHold weight⟩

/-! ## The extractor -/

namespace ProofTree

/-- The secret for a statement that two trees give away: that of its first leaf with two
challenges. -/
def extracted (t t' : ProofTree) (s : Statement) : Option Scalar :=
  ((t.runs.zip t'.runs).find? fun x => x.1.statement = s ∧ x.1.challenge ≠ x.2.challenge).map
    fun x => (x.1.response - x.2.response) * inverse (x.1.challenge - x.2.challenge)

variable {p : Proposition} {t t' : ProofTree}

/-- **All that is found opens its statement.** -/
theorem sound_extracted (h : t.Accepting p) (h' : t'.Accepting p)
    (hcommitments : t.commitments = t'.commitments) : Sound (t.extracted t') := by
  intro s x hx
  obtain ⟨⟨r, r'⟩, hfind, rfl⟩ := Option.map_eq_some_iff.1 hx
  have hdiffer := List.find?_some hfind
  simp only [decide_eq_true_eq] at hdiffer
  obtain ⟨rfl, hne⟩ := hdiffer
  obtain ⟨i, hi⟩ := List.getElem?_of_mem (List.mem_of_find?_eq_some hfind)
  obtain ⟨hr, hr'⟩ := List.getElem?_zip_eq_some.1 hi
  exact (opens_of_differing h h' hcommitments hr hr' hne).2

/-- **What is found is enough**, where the root challenges differ. -/
theorem satisfies_extracted (hp : p.WellFormed) (h : t.Accepting p) (h' : t'.Accepting p)
    (hne : t.challenge ≠ t'.challenge) : Satisfies (t.extracted t') p := by
  have hdescent := satisfiedFrom_differing [] [] [] [] rfl hp h h' hne
  refine Proposition.satisfiedFrom_mono (fun i s hs hdiffer => ?_) hdescent
  -- the leaf at this place has a run in either tree
  obtain ⟨hi, -⟩ := List.getElem?_eq_some_iff.1 hs
  obtain ⟨r, hr⟩ : ∃ r, t.runs[i]? = some r := ⟨_, List.getElem?_eq_getElem (length_runs h ▸ hi)⟩
  obtain ⟨r', hr'⟩ : ∃ r', t'.runs[i]? = some r' :=
    ⟨_, List.getElem?_eq_getElem (length_runs h' ▸ hi)⟩
  have hmem : (r, r') ∈ t.runs.zip t'.runs :=
    List.mem_of_getElem? (List.getElem?_zip_eq_some.2 ⟨hr, hr'⟩)
  rw [← map_statement_runs h, List.getElem?_map, hr, Option.map_some, Option.some.injEq] at hs
  rw [extracted, Option.isSome_map, List.find?_isSome]
  refine ⟨(r, r'), hmem, ?_⟩
  simpa [differ, hr, hr', hs] using hdiffer

/-- Only propositions whose points decode have accepting trees. -/
theorem Accepting.decodes (h : t.Accepting p) : ∀ s ∈ p.leaves, s.Decodes := by
  rw [← map_statement_runs h, List.forall_mem_map]
  exact fun r hr => (accepts_of_mem_runs h r hr).decodes

end ProofTree

/-! ## Reuse -/

/-- **Reuse.**  Two proofs of a valid proposition that pass under all weights, with the same
commitments and different challenges, give secrets away with which proving succeeds over any
message. -/
theorem forgery_of_reuse {p : Proposition} (hp : p.NonTrivial) (hvalid : p.validate = .ok ())
    {proof proof' message message' : Bytes} {t t' : ProofTree}
    (hpass : ∀ weight, verify p proof message weight = .ok ())
    (hpass' : ∀ weight, verify p proof' message' weight = .ok ())
    (ht : finishedTree p proof message = .ok t) (ht' : finishedTree p proof' message' = .ok t')
    (hcommitments : t.commitments = t'.commitments) (hne : t.challenge ≠ t'.challenge)
    (m : Bytes) (entropy : Octets 32) :
    ∃ forged, prove p (t.extracted t') m entropy = .ok forged ∧
      ∀ weight, verify p forged m weight = .ok () := by
  obtain ⟨u, hu, h⟩ := (forall_verify_iff hp hvalid).1 hpass
  obtain ⟨u', hu', h'⟩ := (forall_verify_iff hp hvalid).1 hpass'
  cases ht.symm.trans hu
  cases ht'.symm.trans hu'
  have hwell := ((Proposition.validate_eq_ok hp).1 hvalid).1
  -- the trees that were filled in are the accepting ones
  have hsound := ProofTree.sound_extracted h h' hcommitments
  obtain ⟨forged, hforged⟩ := exists_prove hsound hp hvalid
    (ProofTree.satisfies_extracted hwell h h' hne) h.decodes m entropy
  exact ⟨forged, hforged, verify_of_prove hsound hforged⟩

end

end Covenant

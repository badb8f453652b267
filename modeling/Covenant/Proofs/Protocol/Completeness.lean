/-
  COMPLETENESS — how proving ends, and that what was proved verifies.

  1. **Real runs** — the first moves of the plan that sound secrets make real can be answered for
     any challenge, with an accepting tree (`accepting_of_respond`).
  2. **`verify_of_prove`** — a proof carries the sketch of an accepting tree; the verifier reads the
     sketch back, finds the same transcript, hence the same challenge, fills in the tree, and its
     equations hold under any weights.
  3. **`prove_outcome`** — which of its five endings a proof attempt has; the crux is that it
     succeeds with sound secrets that satisfy the proposition (`exists_prove`).
-/
import Covenant.Proofs.Protocol.Binding
import Covenant.Proofs.Protocol.RealMoves
import Covenant.Proofs.Protocol.Written

namespace Covenant

open Suite

section

variable [Suite]

/-- Every secret that is found opens the statement it is found for. -/
def Sound (resolve : Statement → Option Scalar) : Prop :=
  ∀ s x, resolve s = some x → s.opens x

/-- The secrets that are found satisfy the proposition. -/
def Satisfies (resolve : Statement → Option Scalar) (p : Proposition) : Prop :=
  p.satisfied (fun s => (resolve s).isSome) = true

/-! ## Real runs -/

theorem isReal_mark_iff {resolve : Statement → Option Scalar} {p : Proposition} :
    (Plan.mark resolve p).isReal = true ↔ Satisfies resolve p := by
  rw [Plan.isReal_mark resolve 0, Satisfies, Proposition.satisfied]

theorem Plan.proposition_toProve (resolve : Statement → Option Scalar) {p : Proposition}
    (hp : p.WellFormed) : (Plan.toProve resolve p).proposition = p := by
  rw [Plan.toProve, Plan.proposition_polish, Plan.proposition_mark resolve hp]

theorem Plan.ready_toProve {resolve : Statement → Option Scalar} (hsound : Sound resolve)
    {p : Proposition} (hsat : Satisfies resolve p) :
    (Plan.toProve resolve p).Ready Statement.opens :=
  Plan.ready_polish_mark hsound (isReal_mark_iff.2 hsat)

/-- What is answered after the first moves of a real run is an accepting tree with the challenge
that was asked for. -/
theorem accepting_of_respond [Lawful] {σ : Type} {next : σ → Scalar × σ}
    {resolve : Statement → Option Scalar} (hsound : Sound resolve) {p : Proposition}
    (hp : p.WellFormed) (hsat : Satisfies resolve p) {s s' : σ} {d : Draft} {e : Scalar}
    {t : ProofTree} (hd : commit next (Plan.toProve resolve p) s = .ok (d, s'))
    (ht : d.respond e = .ok t) : t.challenge = e ∧ t.Accepting p := by
  have hplan := Plan.proposition_toProve resolve hp
  obtain ⟨hchallenge, haccepting, -⟩ :=
    (commit_iff (Plan.ready_toProve hsound hsat) (hplan.symm ▸ hp)).1 ⟨d, hd, ht⟩
  exact ⟨hchallenge, hplan ▸ haccepting⟩

/-- The first moves of a real run succeed when all points decode, and can be answered for any
challenge. -/
theorem exists_realRun [Lawful] {σ : Type} (next : σ → Scalar × σ)
    {resolve : Statement → Option Scalar} (hsound : Sound resolve) {p : Proposition}
    (hp : p.WellFormed) (hsat : Satisfies resolve p) (hdecodes : ∀ s ∈ p.leaves, s.Decodes)
    (s : σ) : ∃ d s', commit next (Plan.toProve resolve p) s = .ok (d, s') ∧
      ∀ e, ∃ t, d.respond e = .ok t := by
  have hplan := Plan.proposition_toProve resolve hp
  exact exists_commit next _ s (Plan.ready_toProve hsound hsat) (hplan.symm ▸ hp)
    (hplan.symm ▸ hdecodes)

/-- An accepting run has a commitment of its statement's kind. -/
theorem Statement.Accepts.fits {s : Statement} {a : Commitment} {e z : Scalar}
    (h : s.Accepts a e z) : a.Fits s := by
  obtain ⟨qs, hqs, -⟩ := h
  cases s <;> cases a <;> trivial

theorem ProofTree.Accepting.fits {p : Proposition} {t : ProofTree} (h : t.Accepting p) :
    List.Forall₂ Commitment.Fits p.leaves t.commitments := by
  rw [← map_statement_runs h, ← map_commitment_runs, List.forall₂_map_left_iff,
    List.forall₂_map_right_iff, List.forall₂_same]
  exact fun r hr => (accepts_of_mem_runs h r hr).fits

end

/-! ## What was proved verifies -/

/-- **What was proved verifies**, for any weights of the equations. -/
theorem verify_of_prove [Suite] [Lawful] {p : Proposition} {resolve : Statement → Option Scalar}
    (hsound : Sound resolve) {message : Bytes} {entropy : Octets 32} {proof : Bytes}
    (h : prove p resolve message entropy = .ok proof) (weight : Nat → Scalar) :
    verify p proof message weight = .ok () := by
  by_cases hp : p.NonTrivial
  · rw [prove_eq hp] at h
    simp only [Outcome.bind_eq_ok, Outcome.check_eq_ok, ProverError.ofTree_eq_ok,
      Outcome.pure_eq, Except.ok.injEq, Prod.exists, Bool.not_eq_true, Bool.not_eq_false'] at h
    obtain ⟨ns, hns, hreal, d, s, hd, tr, htr, t, ht, rfl⟩ := h
    have hwell := ((Proposition.validate_eq_ok hp).1
      ((Proposition.validate_iff_listing hp).2 ⟨ns, hns⟩)).1
    obtain ⟨hchallenge, haccepting⟩ :=
      accepting_of_respond hsound hwell (isReal_mark_iff.1 hreal) hd ht
    -- the verifier finds the same commitments, hence the same challenge and the same tree
    obtain ⟨qs, hqs, hhold⟩ := haccepting.equationsHold
    have hpropagate := ProofTree.propagate_sketch false haccepting
    rw [hchallenge] at hpropagate
    rw [verify_eq hp, hns, ProofTree.exactly_toBytes haccepting]
    simp only [VerificationError.ofTree, Except.mapError, Outcome.ok_bind,
      ProofTree.commitments_sketch, Draft.commitments_of_respond ht, htr, hpropagate,
      ProofTree.judge, hqs, Equation.allHold_of_forall weight hhold, if_true]
  · cases p with
    | leaf | node => exact absurd rfl hp
    | trivial b =>
      cases b with
      | false => cases h
      | true => cases h; rfl

/-! ## How proving ends -/

/-- With sound secrets that satisfy a valid proposition, and points that all decode, proving
succeeds. -/
theorem exists_prove [Suite] [Lawful] {p : Proposition} {resolve : Statement → Option Scalar}
    (hsound : Sound resolve) (hp : p.NonTrivial) (hvalid : p.validate = .ok ())
    (hsat : Satisfies resolve p) (hdecodes : ∀ s ∈ p.leaves, s.Decodes) (message : Bytes)
    (entropy : Octets 32) : ∃ proof, prove p resolve message entropy = .ok proof := by
  obtain ⟨ns, hns⟩ := (Proposition.validate_iff_listing hp).1 hvalid
  have hwell := ((Proposition.validate_eq_ok hp).1 hvalid).1
  obtain ⟨d, s, hd, hresponds⟩ := exists_realRun nextNonce hsound hwell hsat hdecodes
    ((Plan.toProve resolve p).supply message entropy)
  -- the commitments are those of any tree that the draft is finished as
  have hfits : List.Forall₂ Commitment.Fits p.leaves d.commitments := by
    obtain ⟨t, ht⟩ := hresponds 0
    rw [← Draft.commitments_of_respond ht]
    exact (accepting_of_respond hsound hwell hsat hd ht).2.fits
  obtain ⟨tr, htr⟩ := exists_boundTranscript hp hvalid hfits message
  obtain ⟨t, ht⟩ := hresponds tr.rootChallenge
  refine ⟨t.toBytes, ?_⟩
  rw [prove_eq hp, hns, isReal_mark_iff.2 hsat, hd]
  simp only [ProverError.ofTree, Bool.not_true, Bool.false_eq_true, if_false,
    Outcome.ok_bind, htr, ht]
  rfl

/-- **Completeness.**  With sound secrets, an attempt to prove `p` ends as its value settles it; or
with a broken rule of the tree, if there is one; or without the secrets, if those at hand do not
satisfy `p`; or else, when all points decode, with a proof that verifies for any weights. -/
theorem prove_outcome [Suite] [Lawful] (p : Proposition) (resolve : Statement → Option Scalar)
    (hsound : Sound resolve) (message : Bytes) (entropy : Octets 32) :
    (p = .trivial true → prove p resolve message entropy = .ok []) ∧
    (p = .trivial false → prove p resolve message entropy = .error .unsatisfiable) ∧
    (p.NonTrivial → p.validate ≠ .ok () →
      ∃ d, prove p resolve message entropy = .error (.malformedTree d)) ∧
    (p.NonTrivial → p.validate = .ok () → ¬Satisfies resolve p →
      prove p resolve message entropy = .error .secretNotFound) ∧
    (p.NonTrivial → p.validate = .ok () → Satisfies resolve p → (∀ s ∈ p.leaves, s.Decodes) →
      ∃ proof, prove p resolve message entropy = .ok proof ∧
        ∀ weight, verify p proof message weight = .ok ()) := by
  refine ⟨?_, ?_, fun hp hinvalid => ?_, fun hp hvalid hunsat => ?_,
    fun hp hvalid hsat hdecodes => ?_⟩
  · rintro rfl; rfl
  · rintro rfl; rfl
  · rw [Ne, Proposition.validate_iff_listing hp] at hinvalid
    rw [prove_eq hp]
    cases hns : p.listing with
    | ok ns => exact absurd ⟨ns, hns⟩ hinvalid
    | error d => exact ⟨d, rfl⟩
  · obtain ⟨ns, hns⟩ := (Proposition.validate_iff_listing hp).1 hvalid
    have hreal : (Plan.mark resolve p).isReal = false :=
      Bool.eq_false_iff.2 fun h => hunsat (isReal_mark_iff.1 h)
    rw [prove_eq hp, hns, hreal]
    rfl
  · obtain ⟨proof, hproof⟩ := exists_prove hsound hp hvalid hsat hdecodes message entropy
    exact ⟨proof, hproof, verify_of_prove hsound hproof⟩

section

attribute [local instance] Suite.residues Suite.lawful_residues

/-- Two of three: a logarithm, either of a tuple and another logarithm, and this logarithm again. -/
def twoOfThree : Proposition :=
  .node (.atLeast 2) [.leaf (.dlog (multiple 2)),
    .node .any [.leaf (.dhTuple (multiple 1) (multiple 3) (multiple 2) (multiple 6)),
      .leaf (.dlog (multiple 5))],
    .leaf (.dlog (multiple 5))]

/-- Somebody who knows one exponent: the first logarithm and that of the tuple. -/
def knowsTwo (s : Statement) : Option Scalar :=
  if s = .dlog (multiple 2) ∨
      s = .dhTuple (multiple 1) (multiple 3) (multiple 2) (multiple 6)
  then some (ofNat 2) else none

theorem sound_knowsTwo : Sound knowsTwo := by
  intro s x h
  unfold knowsTwo at h
  split at h
  · rename_i hs
    cases h
    rcases hs with rfl | rfl
    · rfl
    · refine ⟨ofNat 1 * base, ofNat 3 * base, Lawful.decompress_compress _,
        Lawful.decompress_compress _, ?_, ?_⟩
      · decide
      · decide
  · cases h

theorem decodes_twoOfThree : ∀ s ∈ twoOfThree.leaves, s.Decodes := by
  have hdecodes (x : Scalar) : (decompress (publicPoint x)).isSome = true := by
    rw [publicPoint, Lawful.decompress_compress]; rfl
  intro s hs b hb
  simp only [twoOfThree, Proposition.leaves, Proposition.leavesAll] at hs
  fin_cases hs <;> fin_cases hb <;> exact hdecodes _

theorem satisfies_knowsTwo : Satisfies knowsTwo twoOfThree := by
  rw [Satisfies]
  decide

/-- With two of the three at hand, the proposition is proved and the proof verifies. -/
theorem prove_outcome_twoOfThree : Satisfies knowsTwo twoOfThree ∧
    ∃ proof, prove twoOfThree knowsTwo [1] (.zero 32) = .ok proof ∧
      ∀ weight, verify twoOfThree proof [1] weight = .ok () :=
  ⟨satisfies_knowsTwo, (prove_outcome twoOfThree knowsTwo sound_knowsTwo [1] (.zero 32)).2.2.2.2
    rfl rfl satisfies_knowsTwo decodes_twoOfThree⟩

end

end Covenant

/-
  BOUNDARY — every check of a tree draws the same line.

  A tree is looked at in three places.  `validate` pops nodes off a stack and pushes children so
  that the last comes first; the listing of nodes, which proving and verifying begin with, pushes
  them the other way round and names its defects differently; the decoder descends by recursion and
  counts the levels that are left.  Where a tree has several defects, the first two may well report
  different ones.  They still accept the same trees, namely the well-formed ones that are no deeper
  than `maxDepth`.

  1. **Reading a proof** — what is read for a proposition has its form (`Sketch.ofForm_of_decoder`),
     and a sketch of that form is completed for every challenge.  So a verifier that got past the
     listing does not blame the tree any more (`verify_ne_malformedTree`).
  2. **`Proposition.checks_agree`** — validation, listing, proving and verifying agree on every
     tree, and what they accept is read back by the decoder.
  3. **Towers** — the line between the depths 110 and 111.
-/
import Covenant.Proofs.Codec.Roundtrip
import Covenant.Proofs.Protocol.Format

namespace Covenant

open Suite

/-! ## Reading a proof -/

section

variable [Suite]

namespace Sketch

theorem isSome_of_explicitChallenge {explicit : Bool} {b r : Bytes} {e : Option Scalar}
    (h : explicitChallenge explicit b = .ok (e, r)) : e.isSome = explicit := by
  cases explicit with
  | false => cases h; rfl
  | true =>
    obtain ⟨x, m, -, h⟩ := Decoder.bind_eq_ok.1 h
    cases h
    rfl

omit [Suite] in
theorem fits_of_commitment {s : Statement} {b r : Bytes} {a : Commitment}
    (h : commitment s b = .ok (a, r)) : a.Fits s := by
  cases s with
  | dlog y =>
    obtain ⟨x, m, -, h⟩ := Decoder.bind_eq_ok.1 h
    cases h
    trivial
  | dhTuple g h' u v =>
    obtain ⟨x, m, -, h⟩ := Decoder.bind_eq_ok.1 h
    obtain ⟨y, m', -, h⟩ := Decoder.bind_eq_ok.1 h
    cases h
    trivial

mutual

/-- What is read for a proposition without settled values has its form. -/
theorem ofForm_of_decoder (explicit : Bool) : ∀ {p : Proposition} {b r : Bytes} {k : Sketch},
    p.WellFormed → decoder explicit p b = .ok (k, r) → k.OfForm explicit p
  | .leaf s, b, r, k, _, h => by
    obtain ⟨e, m, he, h⟩ := Decoder.bind_eq_ok.1 h
    obtain ⟨a, m', ha, h⟩ := Decoder.bind_eq_ok.1 h
    obtain ⟨z, m'', -, h⟩ := Decoder.bind_eq_ok.1 h
    cases h
    exact ⟨isSome_of_explicitChallenge he, fits_of_commitment ha⟩
  | .node c cs, b, r, k, hp, h => by
    obtain ⟨e, m, he, h⟩ := Decoder.bind_eq_ok.1 h
    obtain ⟨fs, m', -, h⟩ := Decoder.bind_eq_ok.1 h
    obtain ⟨ks, m'', hks, h⟩ := Decoder.bind_eq_ok.1 h
    cases h
    exact ⟨rfl, isSome_of_explicitChallenge he, ofFormAll_of_decoderAll _ hp.2 hks⟩

theorem ofFormAll_of_decoderAll (disjuncts : Bool) : ∀ {ps : List Proposition} {b r : Bytes}
    {ks : List Sketch}, Proposition.WellFormedAll ps → decoderAll disjuncts ps b = .ok (ks, r) →
      OfFormAll disjuncts ps ks
  | [], b, r, ks, _, h => by
    cases h
    trivial
  | p :: ps, b, r, ks, hp, h => by
    obtain ⟨k, m, hk, h⟩ := Decoder.bind_eq_ok.1 h
    obtain ⟨ks', m', hks', h⟩ := Decoder.bind_eq_ok.1 h
    cases h
    exact ⟨ofForm_of_decoder _ hp.1 hk, ofFormAll_of_decoderAll disjuncts hp.2 hks'⟩

end

end Sketch

/-- **Verifying against a valid proposition never blames the tree**, whatever the proof. -/
theorem verify_ne_malformedTree {p : Proposition} (hvalid : p.validate = .ok ())
    (proof message : Bytes) (weight : Nat → Scalar) (d : TreeDefect) :
    verify p proof message weight ≠ .error (.malformedTree d) := by
  by_cases hp : p.NonTrivial
  · obtain ⟨ns, hns⟩ := (Proposition.validate_iff_listing hp).1 hvalid
    have hwell := ((Proposition.validate_eq_ok hp).1 hvalid).1
    rw [verify_eq hp, hns]
    cases hk : (Sketch.decoder false p).exactly proof with
    | error c => exact fun h => by cases h
    | ok k =>
      -- what was read has the form of the proposition, so filling in cannot fail
      have hform := Sketch.ofForm_of_decoder false hwell (Decoder.exactly_eq_ok.1 hk)
      have hnone : k.challenge? = none := by simpa using hform.isSome_challenge?
      obtain ⟨tr, htr⟩ := exists_boundTranscript hp hvalid hform.fits message
      obtain ⟨t, ht, -⟩ := Sketch.exists_propagate hform (e := tr.rootChallenge) (by simp [hnone])
      simp only [VerificationError.ofTree, Except.mapError, Outcome.ok_bind, htr, ht]
      rcases t.judge_outcome weight with h | h <;> simp [h]
  · cases p with
    | leaf | node => exact absurd rfl hp
    | trivial b =>
      cases b with
      | false => exact fun h => by cases h
      | true =>
        rw [verify]
        split <;> simp

end

namespace Proposition

/-! ## What the decoder has room for -/

mutual

/-- No node of a well-formed tree is too wide for an encoding, so only its points matter. -/
theorem readable_of_wellFormed [Suite] : ∀ {p : Proposition}, p.WellFormed →
    (∀ s ∈ p.leaves, s.Decodes) → p.Readable
  | .leaf s, _, h => h s (List.mem_singleton_self s)
  | .node c cs, ⟨hc, hcs⟩, h => by
    refine ⟨⟨hc.le_maxChildren, ?_⟩, readableAll_of_wellFormedAll hcs h⟩
    rintro k rfl
    have hk : k ≤ maxChildren := hc.required_le.trans hc.le_maxChildren
    exact hk.trans (by decide)

theorem readableAll_of_wellFormedAll [Suite] : ∀ {cs : List Proposition}, WellFormedAll cs →
    (∀ s ∈ leavesAll cs, s.Decodes) → ReadableAll cs
  | [], _, _ => True.intro
  | _ :: _, ⟨hc, hcs⟩, h =>
    ⟨readable_of_wellFormed hc fun s hs => h s (List.mem_append_left _ hs),
      readableAll_of_wellFormedAll hcs fun s hs => h s (List.mem_append_right _ hs)⟩

end

/-- A valid tree fits into an encoding when its points decode. -/
theorem withinLimits_of_validate [Suite] {p : Proposition} (hvalid : p.validate = .ok ())
    (hdecodes : ∀ s ∈ p.leaves, s.Decodes) : p.WithinLimits := by
  by_cases hp : p.NonTrivial
  · obtain ⟨hwell, hdepth⟩ := (validate_eq_ok hp).1 hvalid
    exact ⟨readable_of_wellFormed hwell hdecodes, hdepth⟩
  · cases p with
    | leaf | node => exact absurd rfl hp
    | trivial b => exact ⟨True.intro, Nat.zero_le _⟩

/-! ## One line for all checks -/

/-- **The checks agree.**  Validation and listing accept the same trees: those without a settled
value whose nodes have between one and `maxChildren` children, and enough for their thresholds, and
none of which is deeper than `maxDepth`.  When the listing names a defect, every attempt to prove or
to verify ends with this defect; an attempt ends with a defect of the tree in no other case,
whatever secrets and octets it was given.  A valid tree whose points decode is within the limits of
the decoder, which reads it back from its encoding. -/
theorem checks_agree [Suite] (p : Proposition) :
    (p.NonTrivial → (p.validate = .ok () ↔ p.WellFormed ∧ p.depth ≤ maxDepth) ∧
      ((∃ ns, p.listing = .ok ns) ↔ p.WellFormed ∧ p.depth ≤ maxDepth)) ∧
    (p.NonTrivial → ∀ d, p.listing = .error d →
      (∀ resolve message entropy, prove p resolve message entropy = .error (.malformedTree d)) ∧
      ∀ proof message weight, verify p proof message weight = .error (.malformedTree d)) ∧
    (∀ resolve message entropy,
      (∃ d, prove p resolve message entropy = .error (.malformedTree d)) ↔
        p.NonTrivial ∧ p.validate ≠ .ok ()) ∧
    (∀ proof message weight,
      (∃ d, verify p proof message weight = .error (.malformedTree d)) ↔
        p.NonTrivial ∧ p.validate ≠ .ok ()) ∧
    (p.validate = .ok () → (∀ s ∈ p.leaves, s.Decodes) →
      p.WithinLimits ∧ Decoder.Reads decoder p.toBytes p) := by
  -- prover and verifier both list the tree before anything else
  have hdefect (hp : p.NonTrivial) (d : TreeDefect) (hd : p.listing = .error d) :
      (∀ resolve message entropy, prove p resolve message entropy = .error (.malformedTree d)) ∧
      ∀ proof message weight, verify p proof message weight = .error (.malformedTree d) := by
    refine ⟨fun resolve message entropy => ?_, fun proof message weight => ?_⟩
    · rw [prove_eq hp, hd]
      rfl
    · rw [verify_eq hp, hd]
      rfl
  have hlisted (hp : p.NonTrivial) (hinvalid : p.validate ≠ .ok ()) :
      ∃ d, p.listing = .error d := by
    rw [Ne, validate_iff_listing hp] at hinvalid
    cases hns : p.listing with
    | ok ns => exact absurd ⟨ns, hns⟩ hinvalid
    | error d => exact ⟨d, rfl⟩
  -- only settled values have nothing to validate
  have htrivial (hinvalid : p.validate ≠ .ok ()) : p.NonTrivial := by
    cases p with
    | trivial b => exact absurd rfl hinvalid
    | leaf | node => rfl
  refine ⟨fun hp => ⟨validate_eq_ok hp, ?_⟩, hdefect, fun resolve message entropy => ?_,
    fun proof message weight => ?_, fun hvalid hdecodes => ?_⟩
  · rw [← validate_iff_listing hp, validate_eq_ok hp]
  · constructor
    · rintro ⟨d, hd⟩
      have hinvalid : p.validate ≠ .ok () := fun hvalid =>
        (unbroken_prove hvalid resolve message entropy).2 d hd
      exact ⟨htrivial hinvalid, hinvalid⟩
    · rintro ⟨hp, hinvalid⟩
      obtain ⟨d, hd⟩ := hlisted hp hinvalid
      exact ⟨d, (hdefect hp d hd).1 resolve message entropy⟩
  · constructor
    · rintro ⟨d, hd⟩
      have hinvalid : p.validate ≠ .ok () := fun hvalid =>
        verify_ne_malformedTree hvalid proof message weight d hd
      exact ⟨htrivial hinvalid, hinvalid⟩
    · rintro ⟨hp, hinvalid⟩
      obtain ⟨d, hd⟩ := hlisted hp hinvalid
      exact ⟨d, (hdefect hp d hd).2 proof message weight⟩
  · have hlimits := withinLimits_of_validate hvalid hdecodes
    exact ⟨hlimits, reads_decoder hlimits.readable hlimits.depth_le⟩

/-! ## Towers -/

/-- A statement under so many conjunctions of one. -/
def tower (s : Statement) : Nat → Proposition
  | 0 => .leaf s
  | n + 1 => .node .all [tower s n]

theorem depth_tower (s : Statement) (n : Nat) : (tower s n).depth = n := by
  induction n with
  | zero => rfl
  | succ n ih => simp [tower, depth, depthAll, ih]

theorem wellFormed_tower (s : Statement) (n : Nat) : (tower s n).WellFormed := by
  induction n with
  | zero => exact True.intro
  | succ n ih =>
    refine ⟨⟨Nat.one_pos, ?_, Nat.le_refl 1⟩, ih, True.intro⟩
    show 1 ≤ maxChildren
    decide

theorem leaves_tower (s : Statement) (n : Nat) : (tower s n).leaves = [s] := by
  induction n with
  | zero => rfl
  | succ n ih => simp [tower, leaves, leavesAll, ih]

theorem nonTrivial_tower (s : Statement) (n : Nat) : (tower s n).NonTrivial := by
  cases n <;> rfl

section

attribute [local instance] Suite.residues Suite.lawful_residues

/-- A statement about one exponent under `n` conjunctions. -/
def soleTower (n : Nat) : Proposition := tower (.dlog (multiple 2)) n

/-- The line at the depth of 110: this tower is valid and travels, and nobody can prove or verify
one that is a level higher. -/
theorem checks_agree_tower :
    (soleTower 110).validate = .ok () ∧
    Decoder.Reads decoder (soleTower 110).toBytes (soleTower 110) ∧
    (soleTower 111).validate ≠ .ok () ∧
    (∀ resolve message entropy,
      ∃ d, prove (soleTower 111) resolve message entropy = .error (.malformedTree d)) ∧
    ∀ proof message weight,
      ∃ d, verify (soleTower 111) proof message weight = .error (.malformedTree d) := by
  have hlow := checks_agree (soleTower 110)
  have hhigh := checks_agree (soleTower 111)
  have hnontrivial (n : Nat) : (soleTower n).NonTrivial := nonTrivial_tower _ n
  have hdepth (n : Nat) : (soleTower n).depth = n := depth_tower _ n
  have hvalid : (soleTower 110).validate = .ok () :=
    (hlow.1 (hnontrivial 110)).1.2 ⟨wellFormed_tower _ 110, (hdepth 110).le⟩
  have hinvalid : (soleTower 111).validate ≠ .ok () := by
    rw [Ne, (hhigh.1 (hnontrivial 111)).1, hdepth]
    exact fun h => absurd h.2 (by decide)
  have hdecodes : ∀ t ∈ (soleTower 110).leaves, t.Decodes := by
    rw [soleTower, leaves_tower, List.forall_mem_singleton]
    exact decodes_twoOfThree _ (List.mem_cons_self ..)
  refine ⟨hvalid, (hlow.2.2.2.2 hvalid hdecodes).2, hinvalid, fun resolve message entropy => ?_,
    fun proof message weight => ?_⟩
  · exact (hhigh.2.2.1 resolve message entropy).2 ⟨hnontrivial 111, hinvalid⟩
  · exact (hhigh.2.2.2.1 proof message weight).2 ⟨hnontrivial 111, hinvalid⟩

end

end Proposition

end Covenant

/-
  WRITTEN — proofs as octets, and what a verifier makes of them.

  1. **Reading what was written** — an accepting tree is written as the commitments, the answers and
     the few challenges that do not follow from the root's; reading these octets for the proposition
     gives the tree's sketch (`ProofTree.reads_sketch`).
  2. **Filling in** — from the sketch and the root challenge, `propagate` finds the tree again
     (`ProofTree.propagate_sketch`).
  3. **What can be read at all** fills the proposition (`Sketch.fills_of_decoder`), so the verifier
     never works on anything but filled sketches, and what is shown of these is shown of proofs.
-/
import Covenant.Proofs.Codec.Reading
import Covenant.Proofs.Protocol.Accepting
import Covenant.Proofs.Protocol.Soundness

namespace Covenant

open Suite

variable [Suite]

namespace ProofTree

mutual

/-- What a proof holds of a tree; `explicit` tells whether the root's challenge is written. -/
def sketch (explicit : Bool) : ProofTree → Sketch
  | .leaf s e a z => .leaf s (if explicit then some e else none) a z
  | .node c e fs ts => .node c (if explicit then some e else none) fs (sketchAll (c == .any) ts)

/-- What a proof holds of siblings; under a disjunction all but the last have their challenge. -/
def sketchAll (disjuncts : Bool) : List ProofTree → List Sketch
  | [] => []
  | t :: ts => t.sketch (disjuncts && !ts.isEmpty) :: sketchAll disjuncts ts

end

theorem length_sketchAll (disjuncts : Bool) (ts : List ProofTree) :
    (sketchAll disjuncts ts).length = ts.length := by
  induction ts with
  | nil => rfl
  | cons t ts ih => simp [sketchAll, ih]

theorem challenge?_sketch (explicit : Bool) (t : ProofTree) :
    (t.sketch explicit).challenge? = if explicit then some t.challenge else none := by
  cases t <;> rfl

mutual

theorem commitments_sketch (explicit : Bool) : ∀ t : ProofTree,
    (t.sketch explicit).commitments = t.commitments
  | .leaf _ _ _ _ => rfl
  | .node c _ _ ts => commitments_sketchAll (c == .any) ts

theorem commitments_sketchAll (disjuncts : Bool) : ∀ ts : List ProofTree,
    Sketch.commitmentsAll (sketchAll disjuncts ts) = commitmentsAll ts
  | [] => rfl
  | t :: ts => by
    rw [sketchAll, Sketch.commitmentsAll, commitments_sketch, commitments_sketchAll, commitmentsAll]

end

/-! ## Filling in -/

/-- The challenges of disjuncts are recovered: the last one is what the sum leaves. -/
theorem disjunctChallenges_sketch [Lawful] : ∀ {e : Scalar} {ts : List ProofTree},
    (ts ≠ [] → Suite.sum (ts.map challenge) = e) →
      Sketch.disjunctChallenges e (sketchAll true ts) = .ok (ts.map challenge)
  | _, [], _ => rfl
  | e, [t], h => by
    -- the last disjunct's challenge is not written, but it is all that is left
    have hsum : t.challenge = e := by simpa [sum_eq] using h (by simp)
    simp [sketchAll, Sketch.disjunctChallenges, hsum]
  | e, t :: u :: us, h => by
    have hsum : Suite.sum ((u :: us).map challenge) = e - t.challenge := by
      have hall := h (by simp)
      rw [sum_eq, List.map_cons, List.sum_cons] at hall
      rw [sum_eq, ← hall, add_sub_cancel_left]
    -- any other is written, and taken off before the rest is worked out
    have hrest := disjunctChallenges_sketch fun _ : u :: us ≠ [] => hsum
    simp only [sketchAll, List.isEmpty_cons, Bool.not_false, Bool.and_self] at hrest ⊢
    simp only [Sketch.disjunctChallenges, challenge?_sketch, if_true, hrest, Outcome.ok_bind,
      List.map_cons]
    rfl

theorem childChallenges_sketch [Lawful] {c : Connective} {e : Scalar} {fs : List Scalar}
    {ts : List ProofTree} (h : c.SharesTo e fs (ts.map challenge)) :
    Sketch.childChallenges c e fs (sketchAll (c == .any) ts) = .ok (ts.map challenge) := by
  cases c with
  | all =>
    have hall : ts.map challenge = List.replicate ts.length e := by
      rw [List.eq_replicate_iff]
      exact ⟨List.length_map _, h.2⟩
    simp [Sketch.childChallenges, hall, List.map_const', length_sketchAll]
  | any => exact disjunctChallenges_sketch fun _ => h.2
  | atLeast k =>
    rw [h.2, List.length_map]
    simp [Sketch.childChallenges, length_sketchAll, Polynomial.withConstant]

mutual

/-- **Filling in** recovers an accepting tree from its sketch and the root challenge. -/
theorem propagate_sketch [Lawful] (explicit : Bool) : ∀ {p : Proposition} {t : ProofTree},
    t.Accepting p → (t.sketch explicit).propagate t.challenge = .ok t
  | .leaf _, .leaf _ _ _ _, _ => rfl
  | .node c cs, .node _ e fs ts, ⟨hc, hshares, hts⟩ => by
    subst hc
    simp only [sketch, challenge, Sketch.propagate, childChallenges_sketch hshares,
      Outcome.ok_bind, propagateAll_sketchAll _ hts]
    rfl

theorem propagateAll_sketchAll [Lawful] (disjuncts : Bool) : ∀ {cs : List Proposition}
    {ts : List ProofTree}, AcceptingAll cs ts →
      Sketch.propagateAll (sketchAll disjuncts ts) (ts.map challenge) = .ok ts
  | [], [], _ => rfl
  | _ :: _, t :: ts, h => by
    simp only [sketchAll, List.map_cons, Sketch.propagateAll, propagate_sketch _ h.1,
      propagateAll_sketchAll disjuncts h.2, Outcome.ok_bind]
    rfl

end

/-! ## Reading what was written -/

theorem reads_explicitChallenge [Lawful] (explicit : Bool) (e : Scalar) :
    (Sketch.explicitChallenge explicit).Reads
      (Piece.join (if explicit then [scalarPiece "e" e] else []))
      (if explicit then some e else none) := by
  cases explicit with
  | false => exact Decoder.reads_pure none
  | true =>
    rw [if_pos rfl, if_pos rfl, Piece.join_cons, Piece.join_nil, List.append_nil]
    exact (Decoder.reads_scalar e).map

theorem reads_commitment {s : Statement} {a : Commitment} {e z : Scalar} (h : s.Accepts a e z) :
    (Sketch.commitment s).Reads (Piece.join a.pieces) a := by
  -- a run that is accepting has equations, so its commitment is of the statement's kind
  obtain ⟨qs, hqs, -⟩ := h
  cases s with
  | dlog y =>
    cases a with
    | dlog a =>
      rw [Commitment.pieces, Commitment.points, List.map_singleton, Piece.join_cons, Piece.join_nil,
        List.append_nil]
      exact (Decoder.reads_octets a).map
    | dhTuple a b => cases hqs
  | dhTuple g h u v =>
    cases a with
    | dlog a => cases hqs
    | dhTuple a b =>
      simp only [Commitment.pieces, Commitment.points, List.map_cons, List.map_nil,
        Piece.join_cons, Piece.join_nil, List.append_nil]
      exact (Decoder.reads_octets a).bind (Decoder.reads_octets b).map

/-- The coefficients that a node writes, which only a threshold node does. -/
def coefficientPieces (c : Connective) (fs : List Scalar) : List Piece :=
  match c with
  | .atLeast _ => fs.map (scalarPiece "c")
  | _ => []

theorem pieces_node (explicit : Bool) (c : Connective) (e : Scalar) (fs : List Scalar)
    (ts : List ProofTree) : (node c e fs ts).pieces explicit =
      (if explicit then [scalarPiece "e" e] else []) ++
        (coefficientPieces c fs ++ piecesAll (c == .any) ts) := by
  cases c <;> rfl

theorem reads_coefficients [Lawful] {c : Connective} {e : Scalar} {fs es : List Scalar}
    (h : c.SharesTo e fs es) :
    (Sketch.coefficients c es.length).Reads (Piece.join (coefficientPieces c fs)) fs := by
  cases c with
  | all | any => exact h.1 ▸ Decoder.reads_pure []
  | atLeast k =>
    have hread := Decoder.reads_replicate (fun x => (encodeScalar x).1)
      fun x (_ : x ∈ fs) => Decoder.reads_scalar x
    rw [h.1] at hread
    simpa [Sketch.coefficients, coefficientPieces, Piece.join, List.flatMap_map, scalarPiece,
      Piece.block] using hread

mutual

/-- **Reading what was written** for the proposition gives the tree's sketch. -/
theorem reads_sketch [Lawful] (explicit : Bool) : ∀ {p : Proposition} {t : ProofTree},
    t.Accepting p → (Sketch.decoder explicit p).Reads (Piece.join (t.pieces explicit))
      (t.sketch explicit)
  | .leaf s, .leaf s' e a z, ⟨hs, haccepts⟩ => by
    subst hs
    rw [pieces, List.append_assoc, Piece.join_append, Piece.join_append, Piece.join_cons,
      Piece.join_nil, List.append_nil]
    exact (reads_explicitChallenge explicit e).bind
      ((reads_commitment haccepts).bind (Decoder.reads_scalar z).map)
  | .node c' cs, .node c e fs ts, ⟨hc, hshares, hts⟩ => by
    subst hc
    have hcoefficients := reads_coefficients hshares
    rw [List.length_map, hts.length_eq] at hcoefficients
    rw [pieces_node, Piece.join_append, Piece.join_append]
    exact (reads_explicitChallenge explicit e).bind
      (hcoefficients.bind (reads_sketchAll (c == .any) hts).map)

theorem reads_sketchAll [Lawful] (disjuncts : Bool) : ∀ {cs : List Proposition}
    {ts : List ProofTree}, AcceptingAll cs ts → (Sketch.decoderAll disjuncts cs).Reads
      (Piece.join (piecesAll disjuncts ts)) (sketchAll disjuncts ts)
  | [], [], _ => Decoder.reads_pure []
  | c :: cs, t :: ts, h => by
    have hempty : cs.isEmpty = ts.isEmpty := by
      rw [Bool.eq_iff_iff, List.isEmpty_iff_length_eq_zero, List.isEmpty_iff_length_eq_zero,
        h.2.length_eq]
    rw [piecesAll, Piece.join_append, sketchAll, Sketch.decoderAll, hempty]
    exact (reads_sketch _ h.1).bind (reads_sketchAll disjuncts h.2).map

end

/-- A written proof reads back as the sketch of its tree. -/
theorem exactly_toBytes [Lawful] {p : Proposition} {t : ProofTree} (h : t.Accepting p) :
    (Sketch.decoder false p).exactly t.toBytes = .ok (t.sketch false) :=
  (reads_sketch false h).exactly

end ProofTree

/-! ## What can be read -/

namespace Sketch

omit [Suite] in
theorem length_of_replicate {α : Type} {d : Decoder α} {n : Nat} {b r : Bytes} {xs : List α}
    (h : Decoder.replicate n d b = .ok (xs, r)) : xs.length = n := by
  induction n generalizing b xs with
  | zero => cases h; rfl
  | succ n ih =>
    obtain ⟨x, m, -, hrest⟩ := Decoder.bind_eq_ok.1 h
    obtain ⟨ys, m', hys, hpure⟩ := Decoder.bind_eq_ok.1 hrest
    cases hpure
    rw [List.length_cons, ih hys]

mutual

/-- Every sketch that is read for a proposition without settled values fills it. -/
theorem fills_of_decoder (explicit : Bool) : ∀ {p : Proposition} {b r : Bytes} {k : Sketch},
    p.WellFormed → decoder explicit p b = .ok (k, r) → k.Fills p
  | .leaf s, b, r, k, _, h => by
    obtain ⟨e, m, -, h⟩ := Decoder.bind_eq_ok.1 h
    obtain ⟨a, m, -, h⟩ := Decoder.bind_eq_ok.1 h
    obtain ⟨z, m, -, h⟩ := Decoder.bind_eq_ok.1 h
    cases h
    rfl
  | .node c cs, b, r, k, hp, h => by
    obtain ⟨e, m, -, h⟩ := Decoder.bind_eq_ok.1 h
    obtain ⟨fs, m', hfs, h⟩ := Decoder.bind_eq_ok.1 h
    obtain ⟨ks, m'', hks, h⟩ := Decoder.bind_eq_ok.1 h
    cases h
    refine ⟨rfl, ?_, fillsAll_of_decoderAll _ hp.2 hks⟩
    -- coefficients are read for a threshold node only, as many as its degree
    cases c with
    | all | any => cases hfs; rfl
    | atLeast k => exact length_of_replicate hfs

theorem fillsAll_of_decoderAll (disjuncts : Bool) : ∀ {cs : List Proposition} {b r : Bytes}
    {ks : List Sketch}, Proposition.WellFormedAll cs → decoderAll disjuncts cs b = .ok (ks, r) →
      FillsAll cs ks
  | [], b, r, ks, _, h => by cases h; trivial
  | c :: cs, b, r, ks, hp, h => by
    obtain ⟨k, m, hk, h⟩ := Decoder.bind_eq_ok.1 h
    obtain ⟨ks', m', hks', h⟩ := Decoder.bind_eq_ok.1 h
    cases h
    exact ⟨fills_of_decoder _ hp.1 hk, fillsAll_of_decoderAll disjuncts hp.2 hks'⟩

end

end Sketch

end Covenant

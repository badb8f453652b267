/-
  PROPOSITIONS — which propositions travel, and that evaluation makes no others.

  A proposition is readable when its encoding can be read again: no node has more children than the
  decoder accepts, every threshold fits into a size, and every public point decodes.  The decoder
  bounds the depth as well; evaluation checks that only at its end, so depth is kept apart.

  1. **Reading** — the decoder yields readable propositions of bounded depth
     (`Proposition.faithful_decoder`), and reads every such proposition back from its encoding
     (`Proposition.reads_decoder`).
  2. **Building** — folding readable children into a connective gives a readable proposition again.
     So readability of atoms is a property that evaluation keeps (`Atom.kept_readable`).
-/
import Covenant.Proofs.Codec.Records
import Covenant.Proofs.Protocol.Folding
import Covenant.Proofs.Protocol.Leaf
import Covenant.Proofs.Reduction.Kept

namespace Covenant

open Decoder

variable [Suite] {n k : Nat}

/-! ## Readable propositions -/

/-- The decoder accepts a node of this connective with `m` children. -/
structure Connective.Fits (c : Connective) (m : Nat) : Prop where
  le_maxChildren : m ≤ maxChildren
  le_maxSize : ∀ t, c = .atLeast t → t ≤ Piece.maxSize

namespace Proposition

mutual

/-- Every node fits into an encoding and every public point decodes. -/
def Readable : Proposition → Prop
  | .trivial _ => True
  | .leaf s => s.Decodes
  | .node c cs => c.Fits cs.length ∧ ReadableAll cs

/-- Some propositions are all readable. -/
def ReadableAll : List Proposition → Prop
  | [] => True
  | p :: ps => p.Readable ∧ ReadableAll ps

end

theorem readableAll_iff {ps : List Proposition} : ReadableAll ps ↔ ∀ p ∈ ps, p.Readable := by
  induction ps with
  | nil => simp [ReadableAll]
  | cons p ps ih => rw [ReadableAll, ih, List.forall_mem_cons]

omit [Suite] in
theorem piecesAll_eq_flatMap (ps : List Proposition) : piecesAll ps = ps.flatMap pieces := by
  induction ps with
  | nil => rfl
  | cons p ps ih => rw [piecesAll, ih, List.flatMap_cons]

omit [Suite] in
/-- Children are one level above their node. -/
theorem depthAll_le_iff {ps : List Proposition} {m : Nat} :
    depthAll ps ≤ m ↔ ∀ p ∈ ps, p.depth < m := by
  induction ps with
  | nil => simp [depthAll]
  | cons p ps ih =>
    rw [depthAll, Nat.max_le, ih, List.forall_mem_cons]
    exact Iff.rfl

/-! ## Reading -/

theorem faithful_children {child : Decoder Proposition} {m : Nat}
    (hchild : Faithful n k (fun _ => child) (Spells pieces fun p => p.Readable ∧ p.depth < m)) :
    Faithful n k (fun _ => nodeDecoder.children child)
      (Spells (fun ps => .size "n" ps.length :: piecesAll ps) fun ps =>
        ps.length ≤ maxChildren ∧ ReadableAll ps ∧ depthAll ps ≤ m) :=
  .bind faithful_size fun
  | count, _, ⟨rfl, _⟩ => .check fun hcount =>
    ((hchild.mono (Nat.le_add_right ..)).replicate count).imp fun
    | ps, _, ⟨hlen, hps⟩ => by
      subst hlen
      obtain ⟨rfl, hall⟩ := hps.spells
      refine ⟨by simp [piecesAll_eq_flatMap, Piece.size], Nat.not_lt.1 hcount, ?_, ?_⟩
      · exact readableAll_iff.2 fun p hp => (hall p hp).1
      · exact depthAll_le_iff.2 fun p hp => (hall p hp).2

theorem faithful_nodeDecoder {child : Decoder Proposition} {m : Nat}
    (hchild : ∀ k, Faithful n k (fun _ => child)
      (Spells pieces fun p => p.Readable ∧ p.depth < m)) :
    Faithful n k (fun _ => nodeDecoder child)
      (Spells pieces fun p => p.Readable ∧ p.depth < m + 1) := by
  refine .bind faithful_u8 ?_
  rintro tag _ rfl
  split
  · -- the two constants take their tag alone
    exact .pure ⟨rfl, True.intro, Nat.succ_pos m⟩
  · exact .pure ⟨rfl, True.intro, Nat.succ_pos m⟩
  · refine .map faithful_point ?_
    rintro y _ ⟨h, hy⟩
    refine ⟨?_, ?_, Nat.succ_pos m⟩
    · simp [h, dlog, pieces, Statement.tag, Statement.points, Piece.u8, Piece.block]
    · simpa [dlog, Readable, Statement.Decodes, Statement.names] using hy
  · -- a tuple: four points, each of which decodes
    refine .bind faithful_point ?_
    rintro g _ ⟨hg, hg'⟩
    refine .bind faithful_point ?_
    rintro h _ ⟨hh, hh'⟩
    refine .bind faithful_point ?_
    rintro u _ ⟨hu, hu'⟩
    refine .map faithful_point ?_
    rintro v _ ⟨hv, hv'⟩
    refine ⟨?_, ?_, Nat.succ_pos m⟩
    · simp [hg, hh, hu, hv, dhTuple, pieces, Statement.tag, Statement.points, Piece.u8,
        Piece.block]
    · simp [dhTuple, Readable, Statement.Decodes, Statement.names, hg', hh', hu', hv']
  · -- conjunction and disjunction hold no threshold, so nothing binds one
    refine .map (faithful_children (hchild _)) ?_
    rintro ps _ ⟨h, hlen, hps, hdepth⟩
    refine ⟨?_, ⟨⟨hlen, fun _ heq => by cases heq⟩, hps⟩, Nat.lt_succ_of_le hdepth⟩
    simp [h, pieces, Connective.pieces, Connective.tag, Piece.u8]
  · refine .map (faithful_children (hchild _)) ?_
    rintro ps _ ⟨h, hlen, hps, hdepth⟩
    refine ⟨?_, ⟨⟨hlen, fun _ heq => by cases heq⟩, hps⟩, Nat.lt_succ_of_le hdepth⟩
    simp [h, pieces, Connective.pieces, Connective.tag, Piece.u8]
  · -- the threshold stands before the children and is capped on its way out
    refine .bind faithful_size ?_
    rintro t _ ⟨ht, hle⟩
    refine .map (faithful_children (hchild _)) ?_
    rintro ps _ ⟨h, hlen, hps, hdepth⟩
    refine ⟨?_, ⟨⟨hlen, fun _ heq => ?_⟩, hps⟩, Nat.lt_succ_of_le hdepth⟩
    · simp [h, ht, pieces, Connective.pieces, Connective.tag, Piece.u8, Piece.size]
    · cases heq
      exact hle
  · exact .malformed _

theorem faithful_decoderWithin (levels : Nat) :
    Faithful n k (fun _ => decoderWithin levels)
      (Spells pieces fun p => p.Readable ∧ p.depth < levels) := by
  induction levels generalizing k with
  | zero => exact .malformed _
  | succ levels ih => exact faithful_nodeDecoder fun _ => ih

/-- What is read is readable and not too deep. -/
theorem faithful_decoder : Faithful n k (fun _ => decoder)
    (Spells pieces fun p => p.Readable ∧ p.depth ≤ maxDepth) :=
  (faithful_decoderWithin (maxDepth + 1)).imp fun _ _ ⟨h, hp, hdepth⟩ =>
    ⟨h, hp, Nat.le_of_lt_succ hdepth⟩

/-! ### The octets of each kind of node -/

section

omit [Suite]

/-- What follows the tag, and the threshold, of a node: its count and its children. -/
def childBytes (ps : List Proposition) : Bytes :=
  (Piece.size "n" ps.length).octets ++ ps.flatMap toBytes

theorem join_children (ps : List Proposition) :
    (Piece.size "n" ps.length).octets ++ Piece.join (piecesAll ps) = childBytes ps := by
  rw [piecesAll_eq_flatMap, Piece.join_flatMap]
  rfl

theorem toBytes_dlog (y : PointName) : (leaf (.dlog y)).toBytes = [0x02] ++ y.1 := by
  simp [toBytes, pieces, Statement.tag, Statement.points, Piece.u8, Piece.block]

theorem toBytes_dhTuple (g h u v : PointName) : (leaf (.dhTuple g h u v)).toBytes =
    [0x03] ++ (g.1 ++ (h.1 ++ (u.1 ++ v.1))) := by
  simp [toBytes, pieces, Statement.tag, Statement.points, Piece.u8, Piece.block]

theorem toBytes_all (ps : List Proposition) :
    (node .all ps).toBytes = [0x04] ++ childBytes ps := by
  rw [← join_children]
  simp [toBytes, pieces, Connective.pieces, Connective.tag, Piece.u8]

theorem toBytes_any (ps : List Proposition) :
    (node .any ps).toBytes = [0x05] ++ childBytes ps := by
  rw [← join_children]
  simp [toBytes, pieces, Connective.pieces, Connective.tag, Piece.u8]

theorem toBytes_atLeast (t : Nat) (ps : List Proposition) : (node (.atLeast t) ps).toBytes =
    [0x06] ++ ((Piece.size "k" t).octets ++ childBytes ps) := by
  rw [← join_children]
  simp [toBytes, pieces, Connective.pieces, Connective.tag, Piece.u8]

/-! ### Reading back -/

theorem reads_children {child : Decoder Proposition} {ps : List Proposition}
    (hchild : ∀ p ∈ ps, Reads child p.toBytes p) (hlen : ps.length ≤ maxChildren) :
    Reads (nodeDecoder.children child) (childBytes ps) ps := by
  have hsize : Reads Decoder.size (Piece.size "n" ps.length).octets ps.length :=
    reads_size (Nat.le_trans hlen (by decide))
  refine hsize.bind ?_
  rw [if_neg (Nat.not_lt.2 hlen)]
  exact reads_replicate toBytes hchild

end

/-- A readable proposition is read back, given a level for each of its nodes above one another. -/
theorem reads_decoderWithin {levels : Nat} {p : Proposition} (hp : p.Readable)
    (hdepth : p.depth < levels) : Reads (decoderWithin levels) p.toBytes p := by
  induction levels generalizing p with
  | zero => exact absurd hdepth (Nat.not_lt_zero _)
  | succ levels ih =>
    -- all three kinds of nodes read their children alike, one level down
    have hchildren {c : Connective} {ps : List Proposition} (hnode : (node c ps).Readable)
        (hdepth : (node c ps).depth < levels + 1) :
        Reads (nodeDecoder.children (decoderWithin levels)) (childBytes ps) ps := by
      refine reads_children (fun p hp => ih ?_ ?_) hnode.1.le_maxChildren
      · exact readableAll_iff.1 hnode.2 p hp
      · exact depthAll_le_iff.1 (Nat.le_of_lt_succ hdepth) p hp
    rw [decoderWithin, nodeDecoder]
    cases p with
    | trivial b => cases b <;> exact (reads_u8 _).bind (reads_pure _)
    | leaf s =>
      cases s with
      | dlog y =>
        have hy : (Suite.decompress y).isSome := hp y (by simp [Statement.names])
        rw [toBytes_dlog]
        exact (reads_u8 0x02).bind (reads_point hy).map
      | dhTuple g h u v =>
        have hpoint (y : PointName) (hy : y ∈ [g, h, u, v]) : (Suite.decompress y).isSome := hp y hy
        rw [toBytes_dhTuple]
        exact (reads_u8 0x03).bind ((reads_point (hpoint g (by simp))).bind
          ((reads_point (hpoint h (by simp))).bind ((reads_point (hpoint u (by simp))).bind
            (reads_point (hpoint v (by simp))).map)))
    | node c ps =>
      have hread := hchildren hp hdepth
      cases c with
      | all =>
        rw [toBytes_all]
        exact (reads_u8 0x04).bind hread.map
      | any =>
        rw [toBytes_any]
        exact (reads_u8 0x05).bind hread.map
      | atLeast t =>
        rw [toBytes_atLeast]
        exact (reads_u8 0x06).bind ((reads_size (hp.1.le_maxSize t rfl)).bind hread.map)

/-- **Propositions travel**: a readable one that is not too deep is read back. -/
theorem reads_decoder {p : Proposition} (hp : p.Readable) (hdepth : p.depth ≤ maxDepth) :
    Reads decoder p.toBytes p :=
  reads_decoderWithin hp (Nat.lt_succ_of_le hdepth)

/-! ## Building -/

/-- Folding readable children leaves a readable proposition: a threshold that is not settled is no
larger than the number of children. -/
theorem Folded.readable {ps : List Proposition} {p : Proposition} (h : Folded ps p)
    (hlen : ps.length ≤ maxChildren) (hps : ∀ p ∈ ps, p.Readable) : p.Readable := by
  have hkept (p : Proposition) (hp : p ∈ unsettled ps) : p.Readable := hps p (mem_unsettled.1 hp).1
  cases h with
  | settled b => exact True.intro
  | child _ hmem => exact hkept p hmem
  | node c several required_le _ =>
    have hfewer := Nat.le_trans (length_unsettled_le ps) hlen
    refine ⟨⟨hfewer, ?_⟩, readableAll_iff.2 hkept⟩
    rintro t rfl
    exact Nat.le_trans required_le (Nat.le_trans hfewer (by decide))

end Proposition

/-! ## Readable atoms -/

/-- The atom's encoding can be read again, depth apart. -/
def Atom.Readable : Atom → Prop
  | .groupElement y => (Suite.decompress y).isSome
  | .sigmaProp p => p.Readable
  | .header h => (Suite.decompress h.minerKey).isSome ∧ (Suite.decompress h.powOnetimeKey).isSome
  | .preHeader h => (Suite.decompress h.minerKey).isSome
  | _ => True

/-- **Evaluation keeps readability**: keys come from readable headers, statements from readable
keys, and connectives from few enough readable children. -/
theorem Atom.kept_readable : Atom.Kept Atom.Readable where
  bool _ := trivial
  byte _ := trivial
  short _ := trivial
  int _ := trivial
  long _ := trivial
  bigInt _ := trivial
  stateTree _ _ := trivial
  minerKey _ h := h.1
  powOnetimeKey _ h := h.2
  nextMinerKey _ h := h
  settled _ := trivial
  dlog y hy := List.forall_mem_singleton.2 hy
  dhTuple g h u v hg hh hu hv := by
    simp only [Readable, Proposition.dhTuple, Proposition.Readable, Statement.Decodes,
      Statement.names, List.forall_mem_cons]
    exact ⟨hg, hh, hu, hv, by simp⟩
  allOf ps hlen h := (Proposition.folded_allOf ps).readable hlen h
  anyOf ps hlen h := (Proposition.folded_anyOf ps).readable hlen h
  atLeast t ps hlen h := (Proposition.folded_atLeast ps t).readable hlen h

end Covenant

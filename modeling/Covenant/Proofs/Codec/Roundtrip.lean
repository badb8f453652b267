/-
  ROUNDTRIP — which octets are a proposition, and what a round trip makes of any tree.

  Every tree can be encoded, but the decoder has limits: `maxDepth` for the depth, `maxChildren` for
  the children of a node, `Piece.maxSize` for a threshold, and points have to decode.

  1. **Within the limits** the codec is a bijection: an input is read exactly when it starts with
     the encoding of such a tree, and nothing but that encoding is taken (`decoder_eq_ok_iff`).
     Reading and its converse are those of `Codec.Propositions`; here the limits of the two meet.
  2. **Capping.**  Counts and thresholds past `maxSize` are written as `maxSize`.  `capped` is the
     tree whose thresholds are what was written; it has the octets of the tree it comes from.
  3. **Outside the limits**, whatever is read from the encoding of a tree is its capped form
     (`readsOnly_decoderWithin`, one case for each kind of node).  A capped count is refused, as
     `maxChildren` lies below it.  A capped threshold is not: nothing bounds a threshold, so the
     tree comes back with a smaller one.
-/
import Covenant.Proofs.Codec.Propositions
import Covenant.Proofs.Suite.Residues

namespace Covenant

open Decoder

namespace Proposition

/-! ## Within the limits -/

section

variable [Suite]

/-- The decoder has room for the tree. -/
structure WithinLimits (p : Proposition) : Prop where
  readable : p.Readable
  depth_le : p.depth ≤ maxDepth

/-- An input is read exactly when it starts with the encoding of a tree within the limits. -/
theorem decoder_eq_ok_iff {b rest : Bytes} {p : Proposition} :
    decoder b = .ok (p, rest) ↔ p.WithinLimits ∧ b = p.toBytes ++ rest := by
  constructor
  · intro hrun
    obtain ⟨c, hb, ⟨hc, hp, hdepth⟩, -⟩ := Faithful.plain (fun _ => faithful_decoder) hrun
    subst hc
    exact ⟨⟨hp, hdepth⟩, hb⟩
  · rintro ⟨⟨hp, hdepth⟩, rfl⟩
    exact reads_decoder hp hdepth rest

/-- A whole string is read exactly when it is the encoding of a tree within the limits. -/
theorem ofBytes_eq_ok_iff {b : Bytes} {p : Proposition} :
    ofBytes b = .ok p ↔ p.WithinLimits ∧ b = p.toBytes := by
  rw [ofBytes, exactly_eq_ok, decoder_eq_ok_iff, List.append_nil]

/-- **The codec is an exact bijection** between the trees within the limits and the strings that are
read: an encoding is read back whatever follows it, and what is read is the tree that it encodes. -/
theorem codec_exact :
    (∀ p : Proposition, p.WithinLimits → ∀ rest, decoder (p.toBytes ++ rest) = .ok (p, rest)) ∧
    (∀ b p, ofBytes b = .ok p → p.WithinLimits ∧ p.toBytes = b) ∧
    (∀ b, (∃ p, ofBytes b = .ok p) ↔ ∃ p : Proposition, p.WithinLimits ∧ p.toBytes = b) := by
  refine ⟨fun p hp rest => decoder_eq_ok_iff.2 ⟨hp, rfl⟩, fun b p hrun => ?_, fun b => ?_⟩
  · obtain ⟨hp, hb⟩ := ofBytes_eq_ok_iff.1 hrun
    exact ⟨hp, hb.symm⟩
  · refine exists_congr fun p => ?_
    rw [ofBytes_eq_ok_iff, eq_comm (a := b)]

end

section

attribute [local instance] Suite.residues

/-- A tree that no proof can show, which travels all the same: it asks for four of three children,
one of them settled and one without children of its own. -/
def unprovable : Proposition :=
  .node (.atLeast 4) [.dlog (Suite.multiple 3), .trivial true, .node .any []]

theorem withinLimits_unprovable : unprovable.WithinLimits where
  readable := by
    have hroot : (Connective.atLeast 4).Fits 3 := by
      refine ⟨by decide, ?_⟩
      rintro t heq
      cases heq
      decide
    have hnone : Connective.any.Fits 0 := ⟨by decide, nofun⟩
    have hpoint : (Suite.decompress (Suite.multiple 3)).isSome := by decide
    exact ⟨hroot, List.forall_mem_singleton.2 hpoint, True.intro, ⟨hnone, True.intro⟩, True.intro⟩
  depth_le := by decide

/-- Its octets: tags, the threshold, two counts and a point. -/
def unprovableBytes : Bytes :=
  [0x06, 4, 0, 0, 0, 3, 0, 0, 0, 0x02, 3] ++ List.replicate 31 0 ++ [0x01, 0x05, 0, 0, 0, 0]

/-- It is read back in front of another octet, and what its octets are read as encodes to them. -/
theorem codec_exact_unprovable :
    unprovable.WithinLimits ∧
    decoder (unprovable.toBytes ++ [0x2a]) = .ok (unprovable, [0x2a]) ∧
    ofBytes unprovableBytes = .ok unprovable ∧ unprovable.toBytes = unprovableBytes := by
  have hlimits := withinLimits_unprovable
  have hread : ofBytes unprovableBytes = .ok unprovable :=
    ofBytes_eq_ok_iff.2 ⟨hlimits, by decide⟩
  exact ⟨hlimits, codec_exact.1 _ hlimits [0x2a], hread, (codec_exact.2.1 _ _ hread).2⟩

end

end Proposition

/-! ## Capping -/

/-- The connective with a threshold that fits into a size. -/
def Connective.capped : Connective → Connective
  | .all => .all
  | .any => .any
  | .atLeast k => .atLeast (min k Piece.maxSize)

/-- The threshold, when there is one. -/
def Connective.thresholds : Connective → List Nat
  | .all => []
  | .any => []
  | .atLeast k => [k]

theorem Connective.pieces_capped (c : Connective) (n : Nat) : c.capped.pieces n = c.pieces n := by
  cases c with
  | all => rfl
  | any => rfl
  | atLeast k => simp [Connective.capped, Connective.pieces, Connective.tag, Piece.size]

theorem Connective.capped_eq_iff (c : Connective) :
    c.capped = c ↔ ∀ k ∈ c.thresholds, k ≤ Piece.maxSize := by
  cases c <;> simp [Connective.capped, Connective.thresholds]

namespace Proposition

mutual

/-- The tree with thresholds that fit into a size. -/
def capped : Proposition → Proposition
  | .trivial b => .trivial b
  | .leaf s => .leaf s
  | .node c cs => .node c.capped (cappedAll cs)

/-- Some trees with thresholds that fit into a size. -/
def cappedAll : List Proposition → List Proposition
  | [] => []
  | p :: ps => p.capped :: cappedAll ps

end

mutual

/-- The thresholds of a tree, nodes in pre-order. -/
def thresholds : Proposition → List Nat
  | .trivial _ => []
  | .leaf _ => []
  | .node c cs => c.thresholds ++ thresholdsAll cs

/-- The thresholds of some trees one after the other. -/
def thresholdsAll : List Proposition → List Nat
  | [] => []
  | p :: ps => p.thresholds ++ thresholdsAll ps

end

theorem cappedAll_eq_map (ps : List Proposition) : cappedAll ps = ps.map capped := by
  induction ps with
  | nil => rfl
  | cons p ps ih => rw [cappedAll, ih, List.map_cons]

mutual

/-- A size is capped when it is written, so capping first makes no difference. -/
theorem pieces_capped : (p : Proposition) → p.capped.pieces = p.pieces
  | .trivial _ => rfl
  | .leaf _ => rfl
  | .node c cs => by
    rw [capped, pieces, pieces, c.pieces_capped, piecesAll_cappedAll cs, cappedAll_eq_map,
      List.length_map]

theorem piecesAll_cappedAll : (ps : List Proposition) → piecesAll (cappedAll ps) = piecesAll ps
  | [] => rfl
  | p :: ps => by rw [cappedAll, piecesAll, piecesAll, pieces_capped p, piecesAll_cappedAll ps]

end

theorem toBytes_capped (p : Proposition) : p.capped.toBytes = p.toBytes := by
  rw [toBytes, toBytes, pieces_capped]

mutual

/-- Capping changes a tree exactly when a threshold does not fit. -/
theorem capped_eq_iff : (p : Proposition) → (p.capped = p ↔ ∀ k ∈ p.thresholds, k ≤ Piece.maxSize)
  | .trivial _ => by simp [capped, thresholds]
  | .leaf _ => by simp [capped, thresholds]
  | .node c cs => by
    rw [capped, thresholds, node.injEq, c.capped_eq_iff, cappedAll_eq_iff cs, List.forall_mem_append]

theorem cappedAll_eq_iff : (ps : List Proposition) →
    (cappedAll ps = ps ↔ ∀ k ∈ thresholdsAll ps, k ≤ Piece.maxSize)
  | [] => by simp [cappedAll, thresholdsAll]
  | p :: ps => by
    rw [cappedAll, thresholdsAll, List.cons.injEq, capped_eq_iff p, cappedAll_eq_iff ps,
      List.forall_mem_append]

end

/-! ## Outside the limits -/

/-- The count of a node is read as at most `maxSize`.  That is more than `maxChildren`, so children
are read only where the count was not capped. -/
theorem readsOnly_children {child : Decoder Proposition} {ps : List Proposition}
    (hchild : ∀ p ∈ ps, ReadsOnly child p.toBytes p.capped) :
    ReadsOnly (nodeDecoder.children child) (childBytes ps) (cappedAll ps) := by
  refine (reads_size_capped "n" ps.length).only.bind ?_
  by_cases hlen : maxChildren < min ps.length Piece.maxSize
  · rw [if_pos hlen]
    intro rest v r hrun
    cases hrun
  · -- A count that was capped would have been refused, so this one is the number of children.
    have hfits : ps.length ≤ maxChildren := by
      have hgap : maxChildren < Piece.maxSize := by decide
      omega
    have huncapped : min ps.length Piece.maxSize = ps.length :=
      Nat.min_eq_left (Nat.le_trans hfits (by decide))
    rw [if_neg hlen, huncapped, cappedAll_eq_map]
    exact readsOnly_replicate toBytes capped hchild

section

variable [Suite]

/-- From the encoding of a tree nothing but its capped form is read. -/
theorem readsOnly_decoderWithin (levels : Nat) (p : Proposition) :
    ReadsOnly (decoderWithin levels) p.toBytes p.capped := by
  induction levels generalizing p with
  | zero => exact readsOnly_malformed _ _ _
  | succ levels ih =>
    -- The tag is written without loss, so the decoder asks for the parts that were written; only
    -- the children need a level of their own.
    have hchildren (ps : List Proposition) :
        ReadsOnly (nodeDecoder.children (decoderWithin levels)) (childBytes ps) (cappedAll ps) :=
      readsOnly_children fun p _ => ih p
    rw [decoderWithin, nodeDecoder]
    cases p with
    | trivial b => cases b <;> exact (reads_u8 _).only.bind (reads_pure _).only
    | leaf s =>
      cases s with
      | dlog y =>
        rw [toBytes_dlog]
        exact (reads_u8 0x02).only.bind (readsOnly_point y).map
      | dhTuple g h u v =>
        rw [toBytes_dhTuple]
        exact (reads_u8 0x03).only.bind ((readsOnly_point g).bind ((readsOnly_point h).bind
          ((readsOnly_point u).bind (readsOnly_point v).map)))
    | node c ps =>
      cases c with
      | all =>
        rw [toBytes_all]
        exact (reads_u8 0x04).only.bind (hchildren ps).map
      | any =>
        rw [toBytes_any]
        exact (reads_u8 0x05).only.bind (hchildren ps).map
      | atLeast t =>
        rw [toBytes_atLeast]
        exact (reads_u8 0x06).only.bind
          ((reads_size_capped "k" t).only.bind (hchildren ps).map)

/-- What a round trip yields is the capped tree, and it succeeds exactly when that one lies within
the limits. -/
theorem ofBytes_toBytes_iff {p q : Proposition} :
    ofBytes p.toBytes = .ok q ↔ q = p.capped ∧ p.capped.WithinLimits := by
  constructor
  · intro hrun
    have hlimits := (ofBytes_eq_ok_iff.1 hrun).1
    have hread : decoder (p.toBytes ++ []) = .ok (q, []) := by
      rw [List.append_nil]
      exact exactly_eq_ok.1 hrun
    obtain ⟨rfl, -⟩ := readsOnly_decoderWithin _ p [] q [] hread
    exact ⟨rfl, hlimits⟩
  · rintro ⟨rfl, hlimits⟩
    exact ofBytes_eq_ok_iff.2 ⟨hlimits, (toBytes_capped p).symm⟩

/-- **A round trip changes thresholds past `maxSize` and nothing else**: it fails or yields the
capped tree, which is the tree itself exactly when every threshold fits. -/
theorem roundtrip_capped (p : Proposition) :
    (∀ q, ofBytes p.toBytes = .ok q ↔ q = p.capped ∧ p.capped.WithinLimits) ∧
    (p.capped = p ↔ ∀ k ∈ p.thresholds, k ≤ Piece.maxSize) :=
  ⟨fun _ => ofBytes_toBytes_iff, p.capped_eq_iff⟩

end

section

attribute [local instance] Suite.residues

/-- A tree whose threshold needs a fifth octet. -/
def pastMaxSize : Proposition := .node (.atLeast 0x100000000) [.trivial true]

/-- It comes back as another tree, which asks for one less. -/
theorem roundtrip_pastMaxSize :
    ofBytes pastMaxSize.toBytes = .ok (.node (.atLeast 0xffffffff) [.trivial true]) ∧
    pastMaxSize ≠ .node (.atLeast 0xffffffff) [.trivial true] := by
  have hfits : (Connective.atLeast 0x100000000).capped.Fits 1 := by
    refine ⟨by decide, ?_⟩
    rintro t heq
    cases heq
    exact Nat.min_le_right ..
  have hlimits : pastMaxSize.capped.WithinLimits :=
    ⟨⟨hfits, True.intro, True.intro⟩, by decide⟩
  exact ⟨ofBytes_toBytes_iff.2 ⟨rfl, hlimits⟩, by decide⟩

end

end Proposition

end Covenant

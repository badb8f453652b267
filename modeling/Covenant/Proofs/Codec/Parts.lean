/-
  PARTS — types, signatures, headers and atoms are read back from their encodings.

  These are the parts of an encoding that hold no boxes, in the direction opposite to
  `Codec.Records`: what is within the limits of a decoder is read from its own encoding, whatever
  follows it.

  1. **Numbers and state trees** — always.
  2. **Types** — those that are nested no deeper than `maxTypeDepth` and have tuples of two to
     `maxTupleArity` items (`ValueType.Encodable`).
  3. **Signatures and fields** — a signature with encodable types and few enough arguments.
  4. **Headers and atoms** — those whose points decompress and whose propositions are within the
     limits of their codec (`Atom.Encodable`).
-/
import Covenant.Proofs.Codec.Levels
import Covenant.Proofs.Codec.Roundtrip

namespace Covenant

open Decoder

/-! ## Numbers and state trees -/

/-- A number is read back from its block. -/
theorem BigInt.reads_decoder (x : BigInt) : Reads BigInt.decoder (BigInt.encode x).1 x := by
  have hspelt : Bytes.ofBE (BigInt.encode x).1 = x.toNat := by
    show Bytes.ofLE (Bytes.toLE 32 x.toNat).reverse.reverse = x.toNat
    rw [List.reverse_reverse]
    exact Bytes.ofLE_toLE 32 x.toNat x.isLt
  have hread : Reads BigInt.decoder (BigInt.encode x).1
      (BitVec.ofNat 256 (Bytes.ofBE (BigInt.encode x).1)) := (reads_octets _).map
  rwa [hspelt, BitVec.ofNat_toNat, BitVec.setWidth_eq] at hread

theorem reads_flagDecoder (d : FormatDefect) (b : Bool) :
    Reads (flagDecoder d) [if b then 1 else 0] b := by
  cases b <;> exact (reads_u8 _).bind (reads_pure _)

namespace StateTree

theorem reads_optionalLength (o : Option UInt32) : Reads optionalLength (Piece.join (match o with
    | none => [.u8 "some" 0]
    | some m => [.u8 "some" 1, .u32 "value_length" m])) o := by
  cases o with
  | none => exact (reads_u8 0).bind (reads_pure none)
  | some m =>
    have hbytes : Piece.join [.u8 "some" 1, .u32 "value_length" m] =
        [1] ++ (Piece.u32 "value_length" m).octets := by simp [Piece.u8]
    rw [hbytes]
    exact (reads_u8 1).bind (reads_u32 "value_length" m).map

/-- The flags of a tree have no other bits and tell each of the three operations. -/
theorem flags_spec (t : StateTree) : t.flags &&& 0xf8 = 0 ∧
    decide (t.flags &&& 1 ≠ 0) = t.insertAllowed ∧ decide (t.flags &&& 2 ≠ 0) = t.updateAllowed ∧
      decide (t.flags &&& 4 ≠ 0) = t.removeAllowed := by
  rw [flags]
  generalize t.insertAllowed = i, t.updateAllowed = u, t.removeAllowed = r
  revert i u r
  decide

theorem reads_decoder (t : StateTree) : Reads decoder (Piece.join t.pieces) t := by
  obtain ⟨hreserved, hinsert, hupdate, hremove⟩ := t.flags_spec
  have hbytes : Piece.join t.pieces = t.digest.1 ++ ([t.flags] ++
      ((Piece.u32 "key_length" t.keyLength).octets ++ Piece.join (match t.valueLength with
        | none => [.u8 "some" 0]
        | some m => [.u8 "some" 1, .u32 "value_length" m]))) := by
    rw [pieces]
    cases t.valueLength <;> simp [Piece.block, Piece.u8]
  rw [hbytes]
  refine (reads_octets t.digest).bind ((reads_u8 t.flags).bind ?_)
  rw [if_neg (not_not.2 hreserved), hinsert, hupdate, hremove]
  exact (reads_u32 "key_length" t.keyLength).bind (reads_optionalLength t.valueLength).map

end StateTree

/-! ## Types -/

namespace ValueType

mutual

/-- Depth of nesting; the root is at depth zero. -/
def depth : ValueType → Nat
  | .atom _ => 0
  | .coll t => t.depth + 1
  | .option t => t.depth + 1
  | .tuple ts => depthAll ts

/-- One more than the depth of the deepest of some items; zero without items. -/
def depthAll : List ValueType → Nat
  | [] => 0
  | t :: ts => max (t.depth + 1) (depthAll ts)

end

mutual

/-- Every tuple has at least two and at most `maxTupleArity` items. -/
def Sized : ValueType → Prop
  | .atom _ => True
  | .coll t => t.Sized
  | .option t => t.Sized
  | .tuple ts => (2 ≤ ts.length ∧ ts.length ≤ maxTupleArity) ∧ SizedAll ts

/-- Some types are all sized. -/
def SizedAll : List ValueType → Prop
  | [] => True
  | t :: ts => t.Sized ∧ SizedAll ts

end

/-- The decoder has room for the type. -/
structure Encodable (t : ValueType) : Prop where
  depth_le : t.depth ≤ maxTypeDepth
  sized : t.Sized

theorem depthAll_le_iff {ts : List ValueType} {m : Nat} :
    depthAll ts ≤ m ↔ ∀ t ∈ ts, t.depth < m := by
  induction ts with
  | nil => simp [depthAll]
  | cons t ts ih =>
    rw [depthAll, Nat.max_le, ih, List.forall_mem_cons]
    exact Iff.rfl

theorem sizedAll_iff {ts : List ValueType} : SizedAll ts ↔ ∀ t ∈ ts, t.Sized := by
  induction ts with
  | nil => simp [SizedAll]
  | cons t ts ih => rw [SizedAll, ih, List.forall_mem_cons]

mutual

/-- Tuples of two items have items. -/
theorem Sized.solid : ∀ {t : ValueType}, t.Sized → t.Solid
  | .atom _, _ => True.intro
  | .coll t, h => Sized.solid (t := t) h
  | .option t, h => Sized.solid (t := t) h
  | .tuple ts, h => by
    refine ⟨?_, SizedAll.solidAll h.2⟩
    rintro rfl
    exact absurd h.1.1 (by decide)

theorem SizedAll.solidAll : ∀ {ts : List ValueType}, SizedAll ts → SolidAll ts
  | [], _ => True.intro
  | _ :: _, h => ⟨h.1.solid, SizedAll.solidAll h.2⟩

end

/-- A type is read back, given a level for each of its parts above one another. -/
theorem reads_decoderWithin {levels : Nat} {t : ValueType} (ht : t.Sized)
    (hdepth : t.depth < levels) : Reads (decoderWithin levels) (Piece.join t.pieces) t := by
  induction levels generalizing t with
  | zero => exact absurd hdepth (Nat.not_lt_zero _)
  | succ levels ih =>
    rw [decoderWithin, nodeDecoder]
    cases t with
    | atom a =>
      -- a code of an atom is none of the three that announce a part
      have hbytes : Piece.join (pieces (.atom a)) = [a.code] ++ [] := by simp [pieces, Piece.u8]
      rw [hbytes]
      refine (reads_u8 a.code).bind ?_
      cases a <;> exact reads_pure _
    | coll t =>
      have hpart : t.depth < levels := by
        rw [depth] at hdepth
        omega
      have hbytes : Piece.join (pieces (.coll t)) = [0x0c] ++ Piece.join t.pieces := by
        simp [pieces, Piece.u8]
      rw [hbytes]
      exact (reads_u8 0x0c).bind (ih (t := t) ht hpart).map
    | option t =>
      have hpart : t.depth < levels := by
        rw [depth] at hdepth
        omega
      have hbytes : Piece.join (pieces (.option t)) = [0x24] ++ Piece.join t.pieces := by
        simp [pieces, Piece.u8]
      rw [hbytes]
      exact (reads_u8 0x24).bind (ih (t := t) ht hpart).map
    | tuple ts =>
      -- the two bounds on the number of parts are the checks that follow the size
      have hbytes : Piece.join (pieces (.tuple ts)) = [0x60] ++
          ((Piece.size "n" ts.length).octets ++ ts.flatMap fun t => Piece.join t.pieces) := by
        simp [pieces, Piece.u8, piecesAll_eq_flatMap, Piece.join_flatMap]
      obtain ⟨⟨hlow, hhigh⟩, hitems⟩ := ht
      have hitem (t : ValueType) (hmem : t ∈ ts) :
          Reads (decoderWithin levels) (Piece.join t.pieces) t :=
        ih (sizedAll_iff.1 hitems t hmem)
          (depthAll_le_iff.1 (Nat.le_of_lt_succ hdepth) t hmem)
      have hsize : ts.length ≤ Piece.maxSize := Nat.le_trans hhigh (by decide)
      rw [hbytes]
      refine (reads_u8 0x60).bind ((reads_size hsize).bind ?_)
      rw [if_neg (Nat.not_lt.2 hlow), if_neg (Nat.not_lt.2 hhigh)]
      exact (reads_replicate _ hitem).map

theorem reads_decoder {t : ValueType} (h : t.Encodable) :
    Reads decoder (Piece.join t.pieces) t :=
  reads_decoderWithin h.sized (Nat.lt_succ_of_le h.depth_le)

end ValueType

/-! ## Signatures and fields -/

namespace Signature

/-- The decoder has room for every type, and the arguments can be counted. -/
structure Encodable (s : Signature) : Prop where
  args_le : s.args.length ≤ Piece.maxSize
  args : ∀ a ∈ s.args, a.2.Encodable
  result : s.result.Encodable

theorem reads_argDecoder {a : UInt32 × ValueType} (h : a.2.Encodable) :
    Reads argDecoder ((Piece.u32 "id" a.1).octets ++ Piece.join a.2.pieces) a :=
  (reads_u32 "id" a.1).bind (ValueType.reads_decoder h).map

theorem reads_decoder {s : Signature} (h : s.Encodable) :
    Reads Signature.decoder (Piece.join s.pieces) s := by
  have hbytes : Piece.join s.pieces = (Piece.size "n" s.args.length).octets ++
      (s.args.flatMap (fun a => (Piece.u32 "id" a.1).octets ++ Piece.join a.2.pieces) ++
        Piece.join s.result.pieces) := by
    simp [pieces, Piece.join_flatMap]
  rw [hbytes]
  exact reads_countedThen _ h.args_le (fun a _ => by simp [a.2.join_pieces_ne_nil])
    (fun a ha => reads_argDecoder (h.args a ha)) (ValueType.reads_decoder h.result).map

end Signature

/-- The code of a field leads back to it. -/
theorem RecordKind.reads_fieldDecoder (f : RecordField) :
    Reads f.kind.fieldDecoder [f.code] f := by
  cases f with
  | header f => cases f <;> exact (reads_u8 _).bind (reads_pure _)
  | preHeader f => cases f <;> exact (reads_u8 _).bind (reads_pure _)
  | stateTree f => cases f <;> exact (reads_u8 _).bind (reads_pure _)

/-! ## Headers and atoms -/

variable [Suite]

theorem PreHeader.reads_decoder {h : PreHeader} (hminer : (Suite.decompress h.minerKey).isSome) :
    Reads PreHeader.decoder (Piece.join h.pieces) h := by
  have hbytes : Piece.join h.pieces = [h.version] ++ (h.parentId.1 ++
      ((Piece.u64 "timestamp" h.timestamp).octets ++ ((Piece.u64 "n_bits" h.nBits).octets ++
      ((Piece.u32 "height" h.height).octets ++ (h.minerKey.1 ++ h.votes.1))))) := by
    simp [pieces, Piece.block, Piece.u8]
  rw [hbytes]
  exact (reads_u8 h.version).bind ((reads_octets h.parentId).bind
    ((reads_u64 "timestamp" h.timestamp).bind ((reads_u64 "n_bits" h.nBits).bind
    ((reads_u32 "height" h.height).bind ((reads_point hminer).bind (reads_octets h.votes).map)))))

theorem Header.reads_decoder {h : Header} (hminer : (Suite.decompress h.minerKey).isSome)
    (honetime : (Suite.decompress h.powOnetimeKey).isSome) :
    Reads Header.decoder (Piece.join h.pieces) h := by
  have hbytes : Piece.join h.pieces = h.id.1 ++ ([h.version] ++ (h.parentId.1 ++
      (h.adProofsRoot.1 ++ (Piece.join h.stateRoot.pieces ++ (h.transactionsRoot.1 ++
      ((Piece.u64 "timestamp" h.timestamp).octets ++ ((Piece.u64 "n_bits" h.nBits).octets ++
      ((Piece.u32 "height" h.height).octets ++ (h.extensionRoot.1 ++ (h.minerKey.1 ++
      (h.powOnetimeKey.1 ++ (h.powNonce.1 ++ ((BigInt.encode h.powDistance).1 ++
        h.votes.1))))))))))))) := by
    simp [pieces, Piece.block, Piece.u8]
  rw [hbytes]
  exact (reads_octets h.id).bind ((reads_u8 h.version).bind ((reads_octets h.parentId).bind
    ((reads_octets h.adProofsRoot).bind (h.stateRoot.reads_decoder.bind
    ((reads_octets h.transactionsRoot).bind ((reads_u64 "timestamp" h.timestamp).bind
    ((reads_u64 "n_bits" h.nBits).bind ((reads_u32 "height" h.height).bind
    ((reads_octets h.extensionRoot).bind ((reads_point hminer).bind ((reads_point honetime).bind
    ((reads_octets h.powNonce).bind ((BigInt.reads_decoder h.powDistance).bind
      (reads_octets h.votes).map)))))))))))))

/-- Its points decompress, and a proposition is within the limits of its codec. -/
def Atom.Encodable : Atom → Prop
  | .groupElement y => (Suite.decompress y).isSome
  | .sigmaProp p => p.WithinLimits
  | .header h => (Suite.decompress h.minerKey).isSome ∧ (Suite.decompress h.powOnetimeKey).isSome
  | .preHeader h => (Suite.decompress h.minerKey).isSome
  | _ => True

/-- An atom is read back from its data, given its type. -/
theorem Atom.reads_dataDecoder {a : Atom} (h : a.Encodable) (box : Decoder Box) :
    Reads (a.type.dataDecoder box) (Piece.join a.pieces) (.atom a) := by
  have hone (p : Piece) : Piece.join [p] = p.octets := by simp
  -- numbers are read as the unsigned word of their width, and the sign comes back from it
  cases a with
  | bool b =>
    rw [pieces, hone]
    exact (reads_flagDecoder .booleanFlag b).map
  | byte x =>
    rw [pieces, hone]
    have hread : Reads (AtomType.dataDecoder box .byte) _ (.byte x.toUInt8.toInt8) :=
      (reads_u8 x.toUInt8).map
    rwa [Int8.toInt8_toUInt8] at hread
  | short x =>
    rw [pieces, hone]
    have hread : Reads (AtomType.dataDecoder box .short) _ (.short x.toUInt16.toInt16) :=
      (reads_u16 "short" x.toUInt16).map
    rwa [Int16.toInt16_toUInt16] at hread
  | int x =>
    rw [pieces, hone]
    have hread : Reads (AtomType.dataDecoder box .int) _ (.int x.toUInt32.toInt32) :=
      (reads_u32 "int" x.toUInt32).map
    rwa [Int32.toInt32_toUInt32] at hread
  | long x =>
    rw [pieces, hone]
    have hread : Reads (AtomType.dataDecoder box .long) _ (.long x.toUInt64.toInt64) :=
      (reads_u64 "long" x.toUInt64).map
    rwa [Int64.toInt64_toUInt64] at hread
  | bigInt x =>
    rw [pieces, hone]
    exact (BigInt.reads_decoder x).map
  | groupElement y =>
    rw [pieces, hone]
    exact (reads_point h).map
  | sigmaProp p => exact (Proposition.reads_decoder h.readable h.depth_le).map
  | stateTree t => exact t.reads_decoder.map
  | header x => exact (Header.reads_decoder h.1 h.2).map
  | preHeader x => exact (PreHeader.reads_decoder h).map

end Covenant

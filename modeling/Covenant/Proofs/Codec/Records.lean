/-
  RECORDS — headers, state trees, types and signatures are read from their encodings.

  These are the parts of an encoding that hold no boxes.  Each decoder is faithful, and what it
  takes is the encoding of what it yields: one line for each field, in the order of the fields.
  Keys in headers decompress, and tuple types have items.
-/
import Covenant.Proofs.Codec.Faithful
import Covenant.Script.Decoding

namespace Covenant

open Decoder

variable {n k : Nat}

/-! ## Numbers and state trees -/

/-- A block is the encoding of the number that is read from it. -/
theorem BigInt.encode_ofBE (s : Octets 32) :
    BigInt.encode (BitVec.ofNat 256 (Bytes.ofBE s.1)) = s := by
  obtain ⟨b, hb⟩ := s
  have hlength : b.reverse.length = 32 := by rw [List.length_reverse, hb]
  have hlt : Bytes.ofBE b < 2 ^ 256 := by
    have hlt := Bytes.ofLE_lt b.reverse
    rw [hlength] at hlt
    exact hlt
  have hspelt := Bytes.toLE_ofLE b.reverse
  rw [hlength] at hspelt
  apply Subtype.ext
  rw [BigInt.encode, BitVec.toNat_ofNat, Nat.mod_eq_of_lt hlt]
  change (Bytes.toLE 32 (Bytes.ofLE b.reverse)).reverse = b
  rw [hspelt, List.reverse_reverse]

theorem BigInt.faithful_decoder :
    Faithful n k (fun _ => BigInt.decoder) fun x c => c = (BigInt.encode x).1 :=
  .map faithful_octets fun s _ h => by rw [BigInt.encode_ofBE, h]

namespace StateTree

/-- Flags without other bits are made of the three operations they allow. -/
theorem flags_eq (x : UInt8) (h : x &&& 0xf8 = 0) :
    (if decide (x &&& 1 ≠ 0) then (1 : UInt8) else 0) ||| (if decide (x &&& 2 ≠ 0) then 2 else 0)
      ||| (if decide (x &&& 4 ≠ 0) then 4 else 0) = x := by
  have hall : ∀ i : Fin 256, UInt8.ofFin i &&& 0xf8 = 0 →
      (if decide (UInt8.ofFin i &&& 1 ≠ 0) then (1 : UInt8) else 0)
        ||| (if decide (UInt8.ofFin i &&& 2 ≠ 0) then 2 else 0)
        ||| (if decide (UInt8.ofFin i &&& 4 ≠ 0) then 4 else 0) = UInt8.ofFin i := by
    decide +kernel
  exact hall x.toFin h

theorem faithful_optionalLength : Faithful n k (fun _ => optionalLength) fun o c =>
    c = Piece.join (match o with
      | none => [.u8 "some" 0]
      | some m => [.u8 "some" 1, .u32 "value_length" m]) :=
  .bind faithful_u8 fun
  | flag, _, rfl => by
    split
    · exact .pure rfl
    · exact .map faithful_u32 fun m _ h => by simp [h, Piece.u8, Piece.u32]
    · exact .malformed _

theorem faithful_decoder :
    Faithful n k (fun _ => decoder) fun t c => c = Piece.join t.pieces :=
  .bind faithful_octets fun
  | digest, _, rfl => .bind faithful_u8 fun
  | bits, _, rfl => .check fun hbits => .bind faithful_u32 fun
  | keyLength, _, rfl => .map faithful_optionalLength fun
  | valueLength, _, rfl => by
    rw [pieces, flags, flags_eq bits (not_not.1 hbits)]
    cases valueLength <;> simp [Piece.block, Piece.u8, Piece.u32]

end StateTree

/-! ## Types -/

namespace ValueType

mutual

/-- Tuples have items, in every part of the type. -/
def Solid : ValueType → Prop
  | .atom _ => True
  | .coll t => t.Solid
  | .option t => t.Solid
  | .tuple ts => ts ≠ [] ∧ SolidAll ts

/-- Some types are all solid. -/
def SolidAll : List ValueType → Prop
  | [] => True
  | t :: ts => t.Solid ∧ SolidAll ts

end

theorem solidAll_iff {ts : List ValueType} : SolidAll ts ↔ ∀ t ∈ ts, t.Solid := by
  induction ts with
  | nil => simp [SolidAll]
  | cons t ts ih => rw [SolidAll, ih, List.forall_mem_cons]

theorem piecesAll_eq_flatMap (ts : List ValueType) : piecesAll ts = ts.flatMap pieces := by
  induction ts with
  | nil => rfl
  | cons t ts ih => rw [piecesAll, ih, List.flatMap_cons]

theorem join_pieces_ne_nil (t : ValueType) : Piece.join t.pieces ≠ [] := by
  cases t <;> simp [pieces, Piece.u8]

theorem faithful_nodeDecoder {part : Decoder ValueType}
    (hpart : ∀ k, Faithful n k (fun _ => part) (Spells pieces Solid)) :
    Faithful n k (fun _ => nodeDecoder part) (Spells pieces Solid) :=
  .bind faithful_u8 fun
  | code, _, rfl => by
    split
    · exact .map (hpart _) fun t _ ⟨h, ht⟩ => ⟨by simp [h, pieces, Piece.u8], ht⟩
    · exact .map (hpart _) fun t _ ⟨h, ht⟩ => ⟨by simp [h, pieces, Piece.u8], ht⟩
    · -- a tuple type is refused below two parts, which keeps the empty tuple out of what was read
      refine .bind faithful_size fun m _ ⟨h, hm⟩ => .check fun hshort => .check fun _ =>
        .map ((hpart _).replicate m) fun ts _ ⟨hlen, hts⟩ => ?_
      obtain ⟨rfl, hsolid⟩ := hts.spells
      subst h hlen
      refine ⟨?_, ?_, solidAll_iff.2 hsolid⟩
      · simp [pieces, piecesAll_eq_flatMap, Piece.u8, Piece.size]
      · rintro rfl
        exact hshort (by decide)
    · split
      · exact .malformed _
      · -- the table is searched by code, so the atom that is found has the code that was read
        rename_i a ha
        have hcode : a.code = code := by simpa using List.find?_some ha
        exact .pure ⟨by simp [pieces, Piece.u8, hcode], trivial⟩

theorem faithful_decoderWithin (levels : Nat) :
    Faithful n k (fun _ => decoderWithin levels) (Spells pieces Solid) := by
  induction levels generalizing k with
  | zero => exact .malformed _
  | succ levels ih => exact faithful_nodeDecoder fun _ => ih

theorem faithful_decoder : Faithful n k (fun _ => decoder) (Spells pieces Solid) :=
  faithful_decoderWithin _

end ValueType

/-! ## Signatures and fields -/

theorem Signature.faithful_argDecoder : Faithful n k (fun _ => argDecoder)
    (Spells (fun a => .u32 "id" a.1 :: a.2.pieces) fun _ => True) :=
  .bind faithful_u32 fun
  | id, _, rfl => .map ValueType.faithful_decoder fun
  | t, _, ⟨rfl, _⟩ => ⟨by simp [Piece.u32], trivial⟩

theorem Signature.faithful_decoder : Faithful n k (fun _ => Signature.decoder)
    (Spells pieces fun _ => True) :=
  .countedThen faithful_argDecoder (by rintro _ _ ⟨rfl, -⟩; simp [Piece.u32, Bytes.toLE])
    fun args _ _ hargs => .map ValueType.faithful_decoder fun
    | result, _, ⟨rfl, _⟩ => by
      obtain ⟨rfl, -⟩ := hargs.spells
      exact ⟨by simp [pieces, Piece.size], trivial⟩

/-- The place of an item in a list without repetitions names it. -/
theorem ofNat_idxOf {α : Type} [BEq α] [LawfulBEq α] {l : List α} (h : l.Nodup) {c : UInt8} {a : α}
    (ha : l[c.toNat]? = some a) : UInt8.ofNat (l.idxOf a) = c := by
  obtain ⟨hlt, rfl⟩ := List.getElem?_eq_some_iff.1 ha
  rw [h.idxOf_getElem, UInt8.ofNat_toNat]

theorem RecordKind.faithful_fieldDecoder (kind : RecordKind) :
    Faithful n k (fun _ => kind.fieldDecoder) fun f c => f.kind = kind ∧ c = [f.code] :=
  .bind faithful_u8 fun
  | code, _, rfl => by
    cases kind
    all_goals
      simp only
      split
      · exact .malformed _
      · exact .pure ⟨rfl, congrArg (fun c => [c]) (ofNat_idxOf (by decide) ‹_›).symm⟩

/-! ## Headers -/

variable [Suite]

theorem PreHeader.faithful_decoder : Faithful n k (fun _ => decoder)
    (Spells pieces fun h => (Suite.decompress h.minerKey).isSome) :=
  .bind faithful_u8 fun
  | version, _, rfl => .bind faithful_octets fun
  | parentId, _, rfl => .bind faithful_u64 fun
  | timestamp, _, rfl => .bind faithful_u64 fun
  | nBits, _, rfl => .bind faithful_u32 fun
  | height, _, rfl => .bind faithful_point fun
  | minerKey, _, ⟨rfl, hminer⟩ => .map faithful_octets fun
  | votes, _, rfl => ⟨by simp [pieces, Piece.u8, Piece.block, Piece.u64, Piece.u32], hminer⟩

theorem Header.faithful_decoder : Faithful n k (fun _ => decoder) (Spells pieces fun h =>
    (Suite.decompress h.minerKey).isSome ∧ (Suite.decompress h.powOnetimeKey).isSome) :=
  .bind faithful_octets fun
  | id, _, rfl => .bind faithful_u8 fun
  | version, _, rfl => .bind faithful_octets fun
  | parentId, _, rfl => .bind faithful_octets fun
  | adProofsRoot, _, rfl => .bind StateTree.faithful_decoder fun
  | stateRoot, _, rfl => .bind faithful_octets fun
  | transactionsRoot, _, rfl => .bind faithful_u64 fun
  | timestamp, _, rfl => .bind faithful_u64 fun
  | nBits, _, rfl => .bind faithful_u32 fun
  | height, _, rfl => .bind faithful_octets fun
  | extensionRoot, _, rfl => .bind faithful_point fun
  | minerKey, _, ⟨rfl, hminer⟩ => .bind faithful_point fun
  | powOnetimeKey, _, ⟨rfl, honetime⟩ => .bind faithful_octets fun
  | powNonce, _, rfl => .bind BigInt.faithful_decoder fun
  | powDistance, _, rfl => .map faithful_octets fun
  | votes, _, rfl =>
    ⟨by simp [pieces, Piece.u8, Piece.block, Piece.u64, Piece.u32], hminer, honetime⟩

end Covenant

/-
  UNREAD — which conditions are kept without being read.

  A condition that carries the length of its body is kept octet for octet when the body cannot be
  read, so that boxes guarded by newer conditions can still be passed on.  It would be enough to
  keep those whose failure asks for a newer version; but no failure is looked at, and a malformed
  body is kept all the same.

  1. **`Condition.Carries`** — the header announces a length, and the length is that of the rest.
  2. **Reading** — such a condition is what its body is read as, or kept with the failure
     (`ofBytes_of_carries`); no other condition is kept (`ofBytes_of_not_carries`).
  3. **`Condition.unparsed_spec`** — what is kept, with which reason, and how this compares with
     keeping newer conditions only.  The places that ask for a newer version are those of
     `NeedsNewer`.
-/
import Covenant.Proofs.Script.Equality
import Covenant.Proofs.Script.Places
import Covenant.Suite.Standard

namespace Covenant.Condition

open Decoder

/-! ## Carrying a length -/

/-- The octets are a header that announces a length, the length of the body, and the body. -/
structure Carries (header : UInt8) (body b : Bytes) : Prop where
  announced : header &&& sizeFlag ≠ 0
  octets : b = header :: ((Piece.size "" body.length).octets ++ body)
  length_le : body.length ≤ Piece.maxSize

theorem carries_of_sizeDecoder {header : UInt8} {rest body : Bytes} {u : Unit}
    (hflag : header &&& sizeFlag ≠ 0) (h : sizeDecoder rest = .ok (u, body)) :
    Carries header body (header :: rest) := by
  obtain ⟨hrest, hle⟩ := eq_of_sizeDecoder h
  exact ⟨hflag, congrArg _ hrest, hle⟩

/-- A length can be missing or wrong, and nothing else. -/
theorem error_of_sizeDecoder {rest : Bytes} {e : CodecError} (h : sizeDecoder rest = .error e) :
    e = .unexpectedEnd ∨ e = .invalidFormat .treeSize := by
  rw [sizeDecoder, bind_apply] at h
  cases hsize : Decoder.size rest with
  | error e' =>
    rw [hsize] at h
    cases h
    left
    simp only [Decoder.size, number, bind_apply, Decoder.octets] at hsize
    split at hsize <;> cases hsize
    rfl
  | ok s =>
    rw [hsize, Outcome.ok_bind, bind_apply] at h
    right
    simp only [remaining, Outcome.ok_bind] at h
    split at h <;> cases h
    rfl

section

variable [Suite] {header : UInt8} {body b : Bytes}

/-! ## Reading -/

/-- Reads the body of a condition with a given header from a whole string. -/
def readBody (header : UInt8) (body : Bytes) : Except CodecError Condition :=
  (bodyDecoder (Value.decoderWithin (body.length + 1)) header).exactly body

/-- A body is read alike as part of a condition. -/
theorem exactly_bodyDecoder {levels : Nat} (hlevels : body.length < levels) :
    (bodyDecoder (Value.decoderWithin levels) header).exactly body = readBody header body :=
  (faithful_bodyDecoder (Value.faithful_decoderWith (Box.faithful_decoderWithin (levels + 1)))
    header).exactly_steady (k := 0) (by omega) (by omega) (by omega)

/-- **What carries the length of its body** is what the body is read as, or kept with the reason why
it cannot be read. -/
theorem ofBytes_of_carries (h : Carries header body b) :
    ofBytes b = match readBody header body with
      | .ok c => .ok c
      | .error e => .ok (.unparsed b e) := by
  have hlevels : body.length < b.length + 1 := by
    rw [h.octets, List.length_cons, List.length_append]
    omega
  obtain ⟨announced, rfl, length_le⟩ := h
  have hsize := sizeDecoder_append length_le
  simp only [ofBytes, ofBytesWith, u8, Outcome.ok_bind, if_pos announced]
  rw [show sizeDecoder ((Piece.size "" body.length).octets ++ body) = .ok ((), body) from hsize,
    Outcome.ok_bind, exactly_bodyDecoder hlevels]
  rfl

/-- A condition that announces no length is what the rest is read as. -/
theorem ofBytes_of_not_announced {rest : Bytes} (h : header &&& sizeFlag = 0) :
    ofBytes (header :: rest) = readBody header rest := by
  simp only [ofBytes, ofBytesWith, u8, Outcome.ok_bind, if_neg (not_not.2 h)]
  exact exactly_bodyDecoder (by simp)

/-- A condition that announces a length and does not carry it is refused. -/
theorem ofBytes_of_not_carries {rest : Bytes} (hflag : header &&& sizeFlag ≠ 0)
    (h : ∀ body, ¬Carries header body (header :: rest)) :
    ofBytes (header :: rest) = .error .unexpectedEnd ∨
      ofBytes (header :: rest) = .error (.invalidFormat .treeSize) := by
  simp only [ofBytes, ofBytesWith, u8, Outcome.ok_bind, if_pos hflag]
  cases hsize : sizeDecoder rest with
  | ok s => exact absurd (carries_of_sizeDecoder hflag hsize) (h s.2)
  | error e =>
    rw [Outcome.error_bind]
    rcases error_of_sizeDecoder hsize with rfl | rfl
    · exact .inl rfl
    · exact .inr rfl

/-- What is read of a body is never kept unread. -/
theorem root?_of_readBody {c : Condition} (h : readBody header body = .ok c) : c.root? ≠ none := by
  have hbody : Ensures (bodyDecoder (Value.decoderWithin (body.length + 1)) header)
      fun c => c.root? ≠ none :=
    .check (.check (.check (.andThen fun _ => .andThen fun _ => .pure nofun)))
  exact hbody.exactly h

/-- **What is kept unread** is what carries the length of a body that cannot be read. -/
theorem ofBytes_eq_unparsed_iff {octets : Bytes} {e : CodecError} :
    ofBytes b = .ok (.unparsed octets e) ↔
      octets = b ∧ ∃ header body, Carries header body b ∧ readBody header body = .error e := by
  constructor
  · intro h
    cases b with
    | nil => cases h
    | cons header rest =>
      by_cases hflag : header &&& sizeFlag = 0
      · rw [ofBytes_of_not_announced hflag] at h
        exact absurd rfl (root?_of_readBody h)
      -- a length was announced: if it is that of the rest, the body was kept for its failure
      by_cases hcarries : ∃ body, Carries header body (header :: rest)
      · obtain ⟨body, hbody⟩ := hcarries
        rw [ofBytes_of_carries hbody] at h
        split at h
        · rename_i c hread
          cases h
          exact absurd rfl (root?_of_readBody hread)
        · rename_i e' hread
          cases h
          exact ⟨rfl, header, body, hbody, hread⟩
      · rcases ofBytes_of_not_carries hflag (not_exists.1 hcarries) with hrun | hrun <;>
          rw [hrun] at h <;> cases h
  · rintro ⟨rfl, header, body, hbody, hread⟩
    rw [ofBytes_of_carries hbody, hread]

/-! ## Keeping newer conditions only -/

/-- The reading that keeps a condition only if the failure to read it asks for a newer version, and
refuses it for any other failure. -/
def readStrictly (header : UInt8) (body b : Bytes) : Except CodecError Condition :=
  match readBody header body with
  | .ok c => .ok c
  | .error e => if e.Newer then .ok (.unparsed b e) else .error e

theorem ofBytes_eq_readStrictly_iff (h : Carries header body b) :
    ofBytes b = readStrictly header body b ↔ ∀ e, readBody header body = .error e → e.Newer := by
  rw [ofBytes_of_carries h, readStrictly]
  cases readBody header body with
  | ok c => exact ⟨fun _ _ => nofun, fun _ => rfl⟩
  | error e =>
    constructor
    · rintro hsame _ ⟨⟩
      -- any other failure would have been returned by the one reading and kept by the other
      by_contra hnewer
      simp only [if_neg hnewer] at hsame
      cases hsame
    · intro hnewer
      simp only [if_pos (hnewer e rfl)]

/-- **What is kept without being read.**  Octets are kept exactly when they carry the length of a
body that cannot be read, whatever the reason, and they are kept as they are.  The reason asks for a
newer version exactly when the octets do: because of the version in their header, or because of an
octet in the body at a place where an operation or the header of another condition is read.  This
is the reading that keeps newer conditions only exactly as long as the body has no other reason.
Octets that announce a length and do not carry it are refused. -/
theorem unparsed_spec (b : Bytes) :
    (∀ octets e, ofBytes b = .ok (.unparsed octets e) ↔
      octets = b ∧ ∃ header body, Carries header body b ∧ readBody header body = .error e) ∧
    (∀ header body e, Carries header body b → (readBody header body = .error e ∧ e.Newer ↔
      NeedsNewer (body.length + 1) (.body header) body e)) ∧
    (∀ header body, Carries header body b → (ofBytes b = readStrictly header body b ↔
      ∀ e, readBody header body = .error e → e.Newer)) ∧
    ∀ header rest, b = header :: rest → header &&& sizeFlag ≠ 0 →
      (∀ body, ¬Carries header body b) →
      ofBytes b = .error .unexpectedEnd ∨ ofBytes b = .error (.invalidFormat .treeSize) := by
  refine ⟨fun _ _ => ofBytes_eq_unparsed_iff, fun header body e _ => ?_,
    fun _ _ => ofBytes_eq_readStrictly_iff, ?_⟩
  · rw [needsNewer_iff]
    exact and_congr_left fun hnewer => exactly_eq_error hnewer
  · rintro header rest rfl hflag hcarries
    exact ofBytes_of_not_carries hflag hcarries

end

/-! ## Bodies of a few octets -/

/-- The body `0xff` has an octet that stands for no operation where an operation is read; it is kept,
as it should be.  In the body `01 01 ff` the same octet is the flag of a constant: no newer version
would accept it, and it is kept all the same. -/
theorem unparsed_spec_unknown :
    Carries 0x08 [0xff] [0x08, 1, 0, 0, 0, 0xff] ∧
    NeedsNewer 2 (.body 0x08) [0xff] (.invalidFormat .opcode) ∧
    ofBytes [0x08, 1, 0, 0, 0, 0xff] = readStrictly 0x08 [0xff] [0x08, 1, 0, 0, 0, 0xff] ∧
    Carries 0x08 [1, 1, 0xff] [0x08, 3, 0, 0, 0, 1, 1, 0xff] ∧
    (∀ e, ¬NeedsNewer 4 (.body 0x08) [1, 1, 0xff] e) ∧
    ofBytes [0x08, 3, 0, 0, 0, 1, 1, 0xff] ≠
      readStrictly 0x08 [1, 1, 0xff] [0x08, 3, 0, 0, 0, 1, 1, 0xff] := by
  have hcarries : Carries 0x08 [0xff] [0x08, 1, 0, 0, 0, 0xff] := ⟨by decide, by decide, by decide⟩
  have hread : readBody 0x08 [0xff] = .error (.invalidFormat .opcode) := by decide +kernel
  obtain ⟨-, hreason, hstrict, -⟩ := unparsed_spec [0x08, 1, 0, 0, 0, 0xff]
  have hcarries' : Carries 0x08 [1, 1, 0xff] [0x08, 3, 0, 0, 0, 1, 1, 0xff] :=
    ⟨by decide, by decide, by decide⟩
  have hread' : readBody 0x08 [1, 1, 0xff] = .error (.invalidFormat .booleanFlag) := by
    decide +kernel
  obtain ⟨-, hreason', hstrict', -⟩ := unparsed_spec [0x08, 3, 0, 0, 0, 1, 1, 0xff]
  refine ⟨hcarries, (hreason _ _ _ hcarries).1 ⟨hread, trivial⟩, ?_, hcarries', ?_, ?_⟩
  · refine (hstrict _ _ hcarries).2 fun e he => ?_
    obtain rfl : CodecError.invalidFormat .opcode = e := Except.error.inj (hread.symm.trans he)
    trivial
  · -- the flag that is no boolean is the first reason to fail, and it needs no newer version
    intro e hneeds
    obtain ⟨he, hnewer⟩ := (hreason' _ _ _ hcarries').2 hneeds
    obtain rfl : CodecError.invalidFormat .booleanFlag = e :=
      Except.error.inj (hread'.symm.trans he)
    exact hnewer
  · intro hsame
    exact (hstrict' _ _ hcarries').1 hsame _ hread'

/-- **Malformed conditions are kept as well**: one with an octet left over after its expression, one
that ends too early, one with reserved bits in its header, and one with a flag that is neither zero
nor one.  Each carries the length of its body, and no newer version would accept it. -/
theorem unparsed_malformed :
    ofBytes [0x08, 4, 0, 0, 0, 1, 1, 1, 0] =
      .ok (.unparsed [0x08, 4, 0, 0, 0, 1, 1, 1, 0] .trailingBytes) ∧
    ofBytes [0x08, 2, 0, 0, 0, 1, 1] = .ok (.unparsed [0x08, 2, 0, 0, 0, 1, 1] .unexpectedEnd) ∧
    ofBytes [0x28, 3, 0, 0, 0, 1, 1, 1] =
      .ok (.unparsed [0x28, 3, 0, 0, 0, 1, 1, 1] (.invalidFormat .reservedHeaderBits)) ∧
    ofBytes [0x08, 3, 0, 0, 0, 1, 1, 2] =
      .ok (.unparsed [0x08, 3, 0, 0, 0, 1, 1, 2] (.invalidFormat .booleanFlag)) ∧
    ¬CodecError.trailingBytes.Newer ∧ ¬CodecError.unexpectedEnd.Newer ∧
    ¬(CodecError.invalidFormat .reservedHeaderBits).Newer ∧
    ¬(CodecError.invalidFormat .booleanFlag).Newer := by
  refine ⟨?_, ?_, ?_, ?_, not_false, not_false, not_false, not_false⟩ <;> decide +kernel

end Covenant.Condition

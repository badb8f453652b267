/-
  TRANSACTIONS — which octets are a transaction, signed or not.

  Reading does not undo writing octet for octet here: an input's variables may come in any order,
  and are kept and written in the order of their names.  Everything else has one form.  So a
  transaction is `Spelled` by its own encoding and by those that list variables in other orders, and
  that is what the decoders accept (`SignedTx.ofBytes_eq_ok_iff`, `UnsignedTx.ofBytes_eq_ok_iff`).

  1. **Variables** — inserting one under a new name permutes the list with it in front
     (`Extension.perm_put`), so what is read is the listing in its order, whatever order it came in.
  2. **Transactions** — signed ones from their inputs.
  3. **Unsigned transactions** — those of which all proofs are empty.  All spellings have the same
     length, so what was read from few enough octets has few enough when it is written.
-/
import Covenant.Proofs.Script.Boxes
import Covenant.Ledger.Transaction
import Mathlib.Data.Fintype.Card

namespace Covenant

open Decoder

/-! ## Variables -/

namespace Extension

/-- The encoding of one variable. -/
def entryPieces (e : UInt8 × Value) : List Piece := .u8 "id" e.1 :: e.2.pieces

/-- The encoding of some variables in the order in which they are given. -/
def listing (es : List (UInt8 × Value)) : List Piece :=
  .size "n" es.length :: es.flatMap entryPieces

/-- The octets list the variables, in any order. -/
def Spelled (x : Extension) (c : Bytes) : Prop :=
  ∃ es, es.Perm x.entries ∧ c = Piece.join (listing es)

theorem spelled_pieces (x : Extension) : x.Spelled (Piece.join x.pieces) :=
  ⟨x.entries, .refl _, rfl⟩

/-- Names are octets, so there are no more variables than octets. -/
theorem size_le (x : Extension) : x.size ≤ 256 := by
  have hnames : ((x.entries.map Prod.fst).map UInt8.toFin).Nodup :=
    List.Nodup.map (fun _ _ => UInt8.toFin_inj.1) (x.sorted.imp UInt8.ne_of_lt)
  have hle := hnames.length_le_card
  rw [List.length_map, List.length_map, Fintype.card_fin] at hle
  exact hle

theorem get?_eq_none_iff {x : Extension} {id : UInt8} :
    x.get? id = none ↔ ∀ e ∈ x.entries, id ≠ e.1 := by
  simp [get?, List.lookup_eq_none_iff]

/-- A variable under a new name is put somewhere among the others. -/
theorem perm_put {id : UInt8} {v : Value} {es : List (UInt8 × Value)} (hnew : ∀ e ∈ es, id ≠ e.1) :
    (put id v es).Perm ((id, v) :: es) := by
  induction es with
  | nil => exact .refl _
  | cons e es ih =>
    obtain ⟨i, w⟩ := e
    obtain ⟨hne, hnew⟩ := List.forall_mem_cons.1 hnew
    simp only [put, if_neg hne]
    split
    · exact .refl _
    · exact ((ih hnew).cons (i, w)).trans (.swap (id, v) (i, w) es)

/-- The order of names leaves no choice: the same variables are the same extension. -/
theorem eq_of_perm {x y : Extension} (h : x.entries.Perm y.entries) : x = y := by
  have hsorted (z : Extension) : z.entries.Pairwise fun d e => d.1 < e.1 :=
    List.pairwise_map.1 z.sorted
  have hentries : x.entries = y.entries :=
    h.eq_of_pairwise (fun _ _ _ _ hlt hgt => absurd hlt (UInt8.lt_asymm hgt))
      (hsorted x) (hsorted y)
  cases x
  cases y
  cases hentries
  rfl

/-- All spellings take the same number of octets. -/
theorem Spelled.length_eq {x : Extension} {c : Bytes} (h : x.Spelled c) :
    c.length = (Piece.join x.pieces).length := by
  obtain ⟨es, hperm, rfl⟩ := h
  have hpieces : (Piece.join (es.flatMap entryPieces)).Perm
      (Piece.join (x.entries.flatMap entryPieces)) :=
    (hperm.flatMap_right entryPieces).flatMap_right Piece.octets
  show (Piece.join (listing es)).length = (Piece.join (listing x.entries)).length
  simp only [listing, Piece.join_cons, List.length_append, hpieces.length_eq, hperm.length_eq]

/-- Without two variables there is one order. -/
theorem Spelled.eq_of_size_le {x : Extension} {c : Bytes} (h : x.Spelled c) (hx : x.size ≤ 1) :
    c = Piece.join x.pieces := by
  obtain ⟨es, hperm, rfl⟩ := h
  obtain rfl : es = x.entries := by
    match hentries : x.entries with
    | [] => exact (hentries ▸ hperm).eq_nil
    | [e] => exact List.perm_singleton.1 (hentries ▸ hperm)
    | d :: e :: r =>
      rw [size, hentries, List.length_cons, List.length_cons] at hx
      omega
  rfl

/-- Two variables can be listed in two orders, and the names tell these apart. -/
theorem exists_spelled_ne {x : Extension} (hx : 1 < x.size) :
    ∃ c, x.Spelled c ∧ c ≠ Piece.join x.pieces := by
  match hentries : x.entries with
  | [] | [_] => simp [size, hentries] at hx
  | d :: e :: es =>
    have hlt : d.1 < e.1 := by
      have hsorted := x.sorted
      rw [hentries, List.map_cons, List.map_cons, List.pairwise_cons] at hsorted
      exact hsorted.1 e.1 (.head _)
    refine ⟨_, ⟨e :: d :: es, hentries ▸ .swap d e es, rfl⟩, fun heq => UInt8.ne_of_lt hlt ?_⟩
    have hlisting : Piece.join (listing (e :: d :: es)) = Piece.join (listing (d :: e :: es)) :=
      heq.trans (congrArg (fun es => Piece.join (listing es)) hentries)
    simp [listing, entryPieces, Piece.u8] at hlisting
    exact hlisting.1.symm

variable [Suite] {n k : Nat}

/-- The values of all variables are read back. -/
def Readable (x : Extension) : Prop := ∀ e ∈ x.entries, e.2.Readable

/-- Variables are read in any order; each must be new. -/
theorem faithful_entriesDecoder (m : Nat) {x : Extension} (hx : x.Readable) :
    Faithful n k (fun _ => entriesDecoder m x) fun y c => y.Readable ∧ ∃ es, es.length = m ∧
      (x.entries ++ es).Perm y.entries ∧ c = Piece.join (es.flatMap entryPieces) := by
  induction m generalizing x k with
  | zero => exact .pure ⟨hx, [], rfl, by simp, rfl⟩
  | succ m ih =>
    refine .bind faithful_u8 fun
      | id, _, rfl => .bind Value.faithful_decoder fun
      | v, _, ⟨rfl, hv⟩ => .check fun hnew => ?_
    -- an identifier that is new is put in; the table is sorted, so entries agree up to order only
    have hput : (x.insert id v).entries.Perm ((id, v) :: x.entries) :=
      perm_put (get?_eq_none_iff.1 (Option.not_isSome_iff_eq_none.1 hnew))
    have hinsert : (x.insert id v).Readable := fun e he => by
      rcases List.mem_cons.1 (hput.mem_iff.1 he) with rfl | he
      · exact hv
      · exact hx e he
    refine (ih hinsert).imp ?_
    rintro y _ ⟨hy, es, rfl, hperm, rfl⟩
    refine ⟨hy, (id, v) :: es, rfl, ?_, by simp [entryPieces, Piece.u8]⟩
    have hfront : (x.entries ++ (id, v) :: es).Perm ((id, v) :: x.entries ++ es) :=
      List.perm_middle
    exact hfront.trans ((hput.append_right es).symm.trans hperm)

theorem faithful_decoder :
    Faithful n k (fun _ => Extension.decoder) fun x c => x.Spelled c ∧ x.Readable := by
  refine .bind faithful_size ?_
  rintro count _ ⟨rfl, _⟩
  refine (faithful_entriesDecoder count (x := empty) nofun).imp ?_
  rintro x _ ⟨hx, es, rfl, hperm, rfl⟩
  exact ⟨⟨es, hperm, by simp [listing, Piece.size]⟩, hx⟩

/-- Variables that are those of `y` together with the ones before them are read to `y`. -/
theorem reads_entriesDecoder {es : List (UInt8 × Value)} {x y : Extension}
    (hy : (x.entries ++ es).Perm y.entries) (hes : ∀ e ∈ es, e.2.Readable) :
    Reads (entriesDecoder es.length x) (Piece.join (es.flatMap entryPieces)) y := by
  induction es generalizing x with
  | nil =>
    rw [List.append_nil] at hy
    obtain rfl := eq_of_perm hy
    exact reads_pure x
  | cons e es ih =>
    obtain ⟨id, v⟩ := e
    obtain ⟨hv, hes⟩ := List.forall_mem_cons.1 hes
    -- names do not repeat in `y`, so this one is not among those before it
    have hnames : ((x.entries ++ (id, v) :: es).map Prod.fst).Nodup :=
      (hy.map Prod.fst).nodup_iff.2 (y.sorted.imp UInt8.ne_of_lt)
    have hnone : x.get? id = none := by
      rw [List.map_append, List.nodup_append] at hnames
      exact get?_eq_none_iff.2 fun e he =>
        (hnames.2.2 e.1 (List.mem_map_of_mem he) id (by simp)).symm
    have hput : (x.insert id v).entries.Perm ((id, v) :: x.entries) :=
      perm_put (get?_eq_none_iff.1 hnone)
    have hrest := ih (x := x.insert id v)
      ((hput.append_right es).trans (List.perm_middle.symm.trans hy)) hes
    have hbytes : Piece.join (((id, v) :: es).flatMap entryPieces) =
        [id] ++ (v.toBytes ++ Piece.join (es.flatMap entryPieces)) := by
      simp [entryPieces, Piece.u8, Value.toBytes]
    rw [hbytes]
    refine (reads_u8 id).bind (hv.2.bind ?_)
    rw [if_neg (by simp [hnone])]
    exact hrest

/-- **Variables travel**: they are read back from each of their spellings. -/
theorem reads_decoder {x : Extension} (hx : x.Readable) {c : Bytes} (hc : x.Spelled c) :
    Reads Extension.decoder c x := by
  obtain ⟨es, hperm, rfl⟩ := hc
  have hsize : Reads Decoder.size (Piece.size "n" es.length).octets es.length :=
    reads_size (Nat.le_trans (hperm.length_eq.trans_le x.size_le) (by decide))
  rw [listing, Piece.join_cons]
  exact hsize.bind (reads_entriesDecoder (x := empty) hperm fun e he => hx e (hperm.mem_iff.1 he))

end Extension

/-! ## Signed transactions -/

/-- The octets are the input with its variables in any order. -/
def SignedInput.Spelled (i : SignedInput) (b : Bytes) : Prop :=
  ∃ c, i.extension.Spelled c ∧ b = i.boxId.1 ++ (Piece.join (Piece.string "proof" i.proof) ++ c)

theorem SignedInput.join_pieces (i : SignedInput) : Piece.join i.pieces =
    i.boxId.1 ++ (Piece.join (Piece.string "proof" i.proof) ++ Piece.join i.extension.pieces) := by
  simp [pieces, Piece.block]

theorem SignedInput.spelled_pieces (i : SignedInput) : i.Spelled (Piece.join i.pieces) :=
  ⟨_, i.extension.spelled_pieces, i.join_pieces⟩

theorem SignedInput.Spelled.length_eq {i : SignedInput} {b : Bytes} (h : i.Spelled b) :
    b.length = (Piece.join i.pieces).length := by
  obtain ⟨c, hc, rfl⟩ := h
  simp only [i.join_pieces, List.length_append, hc.length_eq]

theorem SignedInput.Spelled.eq_of_size_le {i : SignedInput} {b : Bytes} (h : i.Spelled b)
    (hi : i.extension.size ≤ 1) : b = Piece.join i.pieces := by
  obtain ⟨c, hc, rfl⟩ := h
  rw [hc.eq_of_size_le hi, i.join_pieces]

theorem SignedInput.exists_spelled_ne {i : SignedInput} (hi : 1 < i.extension.size) :
    ∃ b, i.Spelled b ∧ b ≠ Piece.join i.pieces := by
  obtain ⟨c, hc, hne⟩ := Extension.exists_spelled_ne hi
  exact ⟨_, ⟨c, hc, rfl⟩, by simpa [i.join_pieces] using hne⟩

namespace SignedTx

/-- The octets are the transaction with the variables of each input in any order. -/
def Spelled (tx : SignedTx) (b : Bytes) : Prop :=
  ∃ c, Strung SignedInput.Spelled tx.inputs c ∧
    b = (Piece.size "inputs" tx.inputs.length).octets ++
      (c ++ Piece.join (tailPieces tx.dataInputs tx.outputs))

theorem toBytes_eq (tx : SignedTx) : tx.toBytes =
    (Piece.size "inputs" tx.inputs.length).octets ++
      (tx.inputs.flatMap (fun i => Piece.join i.pieces) ++
        Piece.join (tailPieces tx.dataInputs tx.outputs)) := by
  simp [toBytes, pieces, Piece.join_flatMap]

/-- The encoding is the spelling with all variables in the order of their names. -/
theorem spelled_toBytes (tx : SignedTx) : tx.Spelled tx.toBytes :=
  ⟨_, .flatMap _ fun i _ => i.spelled_pieces, tx.toBytes_eq⟩

theorem Spelled.length_eq {tx : SignedTx} {b : Bytes} (h : tx.Spelled b) :
    b.length = tx.toBytes.length := by
  obtain ⟨c, hc, rfl⟩ := h
  have hinputs : c.length = (Piece.join (tx.inputs.flatMap SignedInput.pieces)).length :=
    (hc.imp fun _ _ h => h.length_eq).length_eq
  simp only [toBytes_eq, List.length_append, hinputs, Piece.join_flatMap]

/-- Where no input has two variables, there is one spelling. -/
theorem Spelled.eq_toBytes {tx : SignedTx} {b : Bytes} (h : tx.Spelled b)
    (hinputs : ∀ i ∈ tx.inputs, i.extension.size ≤ 1) : b = tx.toBytes := by
  obtain ⟨c, hc, rfl⟩ := h
  have hspelt := (hc.imp_of_mem fun i hi _ h => ⟨h.eq_of_size_le (hinputs i hi), True.intro⟩).spells
  rw [hspelt.1, toBytes_eq, Piece.join_flatMap]

/-- Where an input has two variables, there is another spelling. -/
theorem exists_spelled_ne {tx : SignedTx} (h : ∃ i ∈ tx.inputs, 1 < i.extension.size) :
    ∃ b, tx.Spelled b ∧ b ≠ tx.toBytes := by
  obtain ⟨i, hi, hsize⟩ := h
  obtain ⟨c, hc, hne⟩ := SignedInput.exists_spelled_ne hsize
  obtain ⟨cs, hcs, hother⟩ := Strung.exists_ne_flatMap (fun i => Piece.join i.pieces)
    (fun i _ => i.spelled_pieces) hi hc hne
  exact ⟨_, ⟨cs, hcs, rfl⟩, by simpa [toBytes_eq] using hother⟩

end SignedTx

section

variable [Suite] {n k : Nat}

/-- The transaction can be written and is read back. -/
structure UnsignedTx.Readable (tx : UnsignedTx) : Prop where
  inputs_le : tx.inputs.length ≤ Piece.maxSize
  extensions : ∀ i ∈ tx.inputs, i.extension.Readable
  dataInputs_le : tx.dataInputs.length ≤ Piece.maxSize
  outputs_le : tx.outputs.length ≤ maxOutputs
  outputs : ∀ c ∈ tx.outputs, c.Readable

/-- The transaction can be written with its proofs and is read back. -/
structure SignedTx.Readable (tx : SignedTx) : Prop where
  unsigned : tx.unsigned.Readable
  proofs_le : ∀ i ∈ tx.inputs, i.proof.length ≤ Piece.maxSize

theorem SignedInput.faithful_decoder : Faithful n k (fun _ => SignedInput.decoder)
    fun i c => i.Spelled c ∧ i.extension.Readable ∧ i.proof.length ≤ Piece.maxSize := by
  refine .bind faithful_octets ?_
  rintro boxId _ rfl
  refine .bind faithful_string ?_
  rintro proof _ ⟨rfl, hproof⟩
  refine .map Extension.faithful_decoder ?_
  rintro x c ⟨hc, hx⟩
  exact ⟨⟨c, hc, rfl⟩, hx, hproof⟩

theorem SignedInput.reads_decoder {i : SignedInput} (hproof : i.proof.length ≤ Piece.maxSize)
    (hx : i.extension.Readable) {b : Bytes} (hb : i.Spelled b) :
    Reads SignedInput.decoder b i := by
  obtain ⟨c, hc, rfl⟩ := hb
  exact (reads_octets i.boxId).bind ((reads_string hproof).bind
    (Extension.reads_decoder hx hc).map)

namespace SignedTx

theorem faithful_decoder :
    Faithful n k (fun _ => SignedTx.decoder) fun tx c => tx.Spelled c ∧ tx.Readable :=
  .bind faithful_size fun
  | inputCount, _, ⟨rfl, hinputs⟩ => .bind (SignedInput.faithful_decoder.replicate _) fun
  | inputs, c, ⟨hinputs', hstrung⟩ => .bind faithful_size fun
  | dataCount, _, ⟨rfl, hdata⟩ => .bind (faithful_octets.replicate _) fun
  | dataInputs, _, ⟨hdata', hstrung'⟩ => .bind faithful_size fun
  | outputCount, _, ⟨rfl, _⟩ => .check fun houtputs =>
    .map (Candidate.faithful_decoder.replicate _) fun
  | outputs, _, ⟨houtputs', hstrung''⟩ => by
    subst hinputs' hdata' houtputs'
    obtain ⟨rfl, hcandidates⟩ := hstrung''.spells
    have hids : Strung (Spells (fun id => [.block "box_id" id]) fun _ => True) dataInputs _ :=
      hstrung'.imp fun _ _ h => ⟨by simp [h, Piece.block], trivial⟩
    obtain ⟨rfl, -⟩ := hids.spells
    have hall := hstrung.forall_mem fun _ _ h => h.2
    refine ⟨⟨c, hstrung.imp fun _ _ h => h.1, ?_⟩, ⟨?_, fun i hi => (hall i hi).2⟩⟩
    · rw [tailPieces, List.map_eq_flatMap]
      simp [Piece.size]
    · exact ⟨by simpa [unsigned] using hinputs, by simpa [unsigned] using fun i hi => (hall i hi).1,
        hdata, Nat.not_lt.1 houtputs, hcandidates⟩

/-- **Signed transactions travel**: they are read back from each of their spellings. -/
theorem reads_decoder {tx : SignedTx} (h : tx.Readable) {b : Bytes} (hb : tx.Spelled b) :
    Reads SignedTx.decoder b tx := by
  obtain ⟨c, hc, rfl⟩ := hb
  obtain ⟨hunsigned, hproofs⟩ := h
  have htail : Piece.join (tailPieces tx.dataInputs tx.outputs) =
      (Piece.size "data_inputs" tx.dataInputs.length).octets ++
      (tx.dataInputs.flatMap Subtype.val ++
      ((Piece.size "outputs" tx.outputs.length).octets ++
        tx.outputs.flatMap Candidate.toBytes)) := by
    rw [tailPieces, List.map_eq_flatMap]
    simp only [Piece.join_append, Piece.join_cons, Piece.join_flatMap, Piece.join_nil,
      Piece.block, List.append_nil, List.append_assoc]
    rfl
  have hinputs : tx.inputs.length ≤ Piece.maxSize := by
    simpa only [unsigned, List.length_map] using hunsigned.inputs_le
  have hinput (i : SignedInput) (hi : i ∈ tx.inputs) (c : Bytes) (hc : i.Spelled c) :
      Reads SignedInput.decoder c i :=
    SignedInput.reads_decoder (hproofs i hi)
      (hunsigned.extensions ⟨i.boxId, i.extension⟩ (List.mem_map_of_mem hi)) hc
  have houtputs : tx.outputs.length ≤ maxOutputs := hunsigned.outputs_le
  rw [htail]
  refine (reads_size hinputs).bind ((hc.reads hinput).bind
    ((reads_size hunsigned.dataInputs_le).bind ((reads_replicate _ fun id _ => reads_octets id).bind
      ((reads_size (Nat.le_trans houtputs (by decide))).bind ?_))))
  rw [if_neg (Nat.not_lt.2 houtputs)]
  exact (reads_replicate _ fun c hc => (hunsigned.outputs c hc).2).map

/-- **Which octets are a signed transaction**: its spellings, when it can be written at all. -/
theorem ofBytes_eq_ok_iff {b : Bytes} {tx : SignedTx} :
    ofBytes b = .ok tx ↔ tx.Readable ∧ tx.Spelled b := by
  have hexactly : ofBytes b = .ok tx ↔ decoder.exactly b = .ok tx := by
    rw [ofBytes]
    split <;> simp_all
  rw [hexactly]
  constructor
  · intro hrun
    obtain ⟨c, hb, ⟨hc, htx⟩, -⟩ :=
      Faithful.plain (fun _ => faithful_decoder) (exactly_eq_ok.1 hrun)
    rw [List.append_nil] at hb
    exact ⟨htx, hb ▸ hc⟩
  · rintro ⟨htx, hb⟩
    exact (reads_decoder htx hb).exactly

end SignedTx

end

/-! ## Unsigned transactions -/

namespace UnsignedTx

/-- The transaction with an empty proof for each input, which has its encoding. -/
def unproved (tx : UnsignedTx) : SignedTx :=
  ⟨tx.inputs.map fun i => ⟨i.boxId, [], i.extension⟩, tx.dataInputs, tx.outputs⟩

@[simp] theorem unsigned_unproved (tx : UnsignedTx) : tx.unproved.unsigned = tx := by
  cases tx
  simp [unproved, SignedTx.unsigned, Function.comp_def]

theorem toBytes_unproved (tx : UnsignedTx) : tx.unproved.toBytes = tx.toBytes := by
  simp [toBytes, pieces, SignedTx.toBytes, SignedTx.pieces, unproved, List.flatMap_map]

/-- A transaction whose proofs are all empty is its unsigned form with empty proofs. -/
theorem unproved_unsigned {signed : SignedTx} (h : ∀ i ∈ signed.inputs, i.proof = []) :
    signed.unsigned.unproved = signed := by
  obtain ⟨inputs, dataInputs, outputs⟩ := signed
  have hinputs : inputs.map (fun i => (⟨i.boxId, [], i.extension⟩ : SignedInput)) = inputs := by
    refine (List.map_congr_left fun i hi => ?_).trans inputs.map_id
    obtain ⟨boxId, proof, x⟩ := i
    obtain rfl : proof = [] := h _ hi
    rfl
  simp only [unproved, SignedTx.unsigned, List.map_map, Function.comp_def, hinputs]

/-- The octets are the transaction with the variables of each input in any order. -/
def Spelled (tx : UnsignedTx) (b : Bytes) : Prop := tx.unproved.Spelled b

theorem spelled_toBytes (tx : UnsignedTx) : tx.Spelled tx.toBytes :=
  tx.toBytes_unproved ▸ tx.unproved.spelled_toBytes

theorem Spelled.length_eq {tx : UnsignedTx} {b : Bytes} (h : tx.Spelled b) :
    b.length = tx.toBytes.length :=
  tx.toBytes_unproved ▸ SignedTx.Spelled.length_eq h

theorem Spelled.eq_toBytes {tx : UnsignedTx} {b : Bytes} (h : tx.Spelled b)
    (hinputs : ∀ i ∈ tx.inputs, i.extension.size ≤ 1) : b = tx.toBytes := by
  rw [← tx.toBytes_unproved]
  exact SignedTx.Spelled.eq_toBytes h (List.forall_mem_map.2 hinputs)

theorem exists_spelled_ne {tx : UnsignedTx} (h : ∃ i ∈ tx.inputs, 1 < i.extension.size) :
    ∃ b, tx.Spelled b ∧ b ≠ tx.toBytes := by
  obtain ⟨i, hi, hsize⟩ := h
  rw [← tx.toBytes_unproved]
  exact SignedTx.exists_spelled_ne ⟨_, List.mem_map_of_mem hi, hsize⟩

variable [Suite]

theorem Readable.unproved {tx : UnsignedTx} (h : tx.Readable) : tx.unproved.Readable :=
  ⟨tx.unsigned_unproved.symm ▸ h, List.forall_mem_map.2 fun _ _ => Nat.zero_le _⟩

/-- **Which octets are an unsigned transaction**: its spellings, when it can be written at all. -/
theorem ofBytes_eq_ok_iff {b : Bytes} {tx : UnsignedTx} :
    ofBytes b = .ok tx ↔ tx.Readable ∧ tx.Spelled b := by
  constructor
  · intro hrun
    obtain ⟨signed, hsigned, hrun⟩ := Outcome.bind_eq_ok.1 hrun
    obtain ⟨hproofs, hrun⟩ := Outcome.check_eq_ok.1 hrun
    obtain rfl : signed.unsigned = tx := Except.ok.inj hrun
    obtain ⟨hreadable, hspelled⟩ := SignedTx.ofBytes_eq_ok_iff.1 hsigned
    have hempty : ∀ i ∈ signed.inputs, i.proof = [] := by simpa using hproofs
    refine ⟨hreadable.unsigned, ?_⟩
    rwa [Spelled, unproved_unsigned hempty]
  · rintro ⟨hreadable, hspelled⟩
    have hread : SignedTx.ofBytes b = .ok tx.unproved :=
      SignedTx.ofBytes_eq_ok_iff.2 ⟨hreadable.unproved, hspelled⟩
    have hnone : ¬(tx.unproved.inputs.any fun i => !i.proof.isEmpty) = true := by
      simp [UnsignedTx.unproved]
    rw [ofBytes, hread, Outcome.ok_bind, if_neg hnone, unsigned_unproved]
    rfl

/-- What is read as an unsigned transaction can be written in as many octets. -/
theorem readable_of_ofBytes {b : Bytes} {tx : UnsignedTx} (h : ofBytes b = .ok tx) :
    tx.Readable ∧ tx.toBytes.length = b.length := by
  obtain ⟨hreadable, hspelled⟩ := ofBytes_eq_ok_iff.1 h
  exact ⟨hreadable, hspelled.length_eq.symm⟩

/-- **Unsigned transactions travel**: they are read back from their encoding. -/
theorem ofBytes_toBytes {tx : UnsignedTx} (h : tx.Readable) : ofBytes tx.toBytes = .ok tx :=
  ofBytes_eq_ok_iff.2 ⟨h, tx.spelled_toBytes⟩

end UnsignedTx

end Covenant

/-
  READING — decoders that take a known string of octets off the front.

  `Decoder.Reads d b x` says that the decoder takes exactly `b` and yields `x`, whatever follows.
  It follows the structure of a decoder: a sequence reads the parts one after the other
  (`Reads.bind`), and a repetition reads the encodings of all items (`reads_replicate`).  With
  nothing behind it, a string that is read this way is accepted as a whole (`Reads.exactly`).

  `Decoder.ReadsOnly d b x` is the half of it that leaves room for a failure: on input that starts
  with `b` the decoder yields nothing but `x`, if it gets through at all.  It has the same rules,
  and a decoder that always fails has it for every `x`.
-/
import Covenant.Codec
import Covenant.Proofs.Outcome
import Covenant.Proofs.Suite.Lawful

namespace Covenant.Decoder

variable {α β : Type}

/-! ## Steps of a decoder -/

theorem throw_apply (e : CodecError) (b : Bytes) : (throw e : Decoder α) b = .error e := rfl

theorem bind_apply (x : Decoder α) (f : α → Decoder β) (b : Bytes) :
    (x >>= f) b = x b >>= fun s => f s.1 s.2 := rfl

/-- A sequence succeeds exactly when both its steps do. -/
theorem bind_eq_ok {x : Decoder α} {f : α → Decoder β} {b r : Bytes} {v : β} :
    (x >>= f) b = .ok (v, r) ↔ ∃ a m, x b = .ok (a, m) ∧ f a m = .ok (v, r) := by
  rw [bind_apply, Outcome.bind_eq_ok, Prod.exists]

/-- A sequence fails where its first step does, or else the second. -/
theorem bind_eq_error {x : Decoder α} {f : α → Decoder β} {b : Bytes} {e : CodecError} :
    (x >>= f) b = .error e ↔ x b = .error e ∨ ∃ a m, x b = .ok (a, m) ∧ f a m = .error e := by
  rw [bind_apply]
  cases x b with
  | error e' => simp
  | ok s => simp [Prod.ext_iff]

/-- A check fails for its own reason, or lets what follows fail. -/
theorem check_eq_error {c : Prop} [Decidable c] {d : FormatDefect} {f : PUnit → Decoder α}
    {y : Decoder α} {b : Bytes} {e : CodecError} :
    (if c then Decoder.malformed d >>= f else y) b = .error e ↔
      c ∧ e = .invalidFormat d ∨ ¬c ∧ y b = .error e := by
  by_cases h : c
  · simp [h, bind_apply, malformed, eq_comm]
  · simp [h]

/-! ## Reading a known string -/

/-- The decoder takes the octets `b` off the front of any input and yields `x`. -/
def Reads (d : Decoder α) (b : Bytes) (x : α) : Prop := ∀ rest, d (b ++ rest) = .ok (x, rest)

theorem reads_pure (a : α) : Reads (pure a) [] a := fun _ => rfl

theorem Reads.bind {x : Decoder α} {f : α → Decoder β} {b c : Bytes} {a : α} {v : β}
    (hx : Reads x b a) (hf : Reads (f a) c v) : Reads (x >>= f) (b ++ c) v := by
  intro rest
  rw [bind_apply, List.append_assoc, hx, Outcome.ok_bind]
  exact hf rest

/-- A step whose result is only wrapped. -/
theorem Reads.map {x : Decoder α} {g : α → β} {b : Bytes} {a : α} (hx : Reads x b a) :
    Reads (x >>= fun a => pure (g a)) b (g a) := by
  simpa using hx.bind (f := fun a => pure (g a)) (reads_pure (g a))

/-- A string that is read with nothing behind it is accepted as a whole. -/
theorem Reads.exactly {d : Decoder α} {b : Bytes} {x : α} (h : Reads d b x) :
    d.exactly b = .ok x := by
  have := h []
  rw [List.append_nil] at this
  rw [Decoder.exactly, this]

theorem reads_u8 (x : UInt8) : Reads u8 [x] x := fun _ => rfl

theorem splitOctets_append {n : Nat} (b : Octets n) (rest : Bytes) :
    Bytes.splitOctets n (b.1 ++ rest) = some (b, rest) := by
  obtain ⟨b, rfl⟩ := b
  induction b with
  | nil => rfl
  | cons x b ih =>
    simp only [List.length_cons, List.cons_append, Bytes.splitOctets]
    rw [ih]
    rfl

theorem reads_octets {n : Nat} (b : Octets n) : Reads (octets n) b.1 b := by
  intro rest
  rw [octets, splitOctets_append]

/-- A number that fits is read back from its octets. -/
theorem reads_number {k n : Nat} (h : n < Bytes.capacity k) :
    Reads (number k) (Bytes.toLE k n) n := by
  have hread := (reads_octets (Octets.ofNatLE k n)).map (g := fun b => Bytes.ofLE b.1)
  rwa [Octets.ofNatLE, Bytes.ofLE_toLE k n h] at hread

/-- A size is read back as it was written, which is capped. -/
theorem reads_size_capped (label : String) (n : Nat) :
    Reads size (Piece.size label n).octets (min n Piece.maxSize) :=
  reads_number (Nat.lt_of_le_of_lt (Nat.min_le_right ..) (by decide))

theorem reads_size {label : String} {n : Nat} (h : n ≤ Piece.maxSize) :
    Reads size (Piece.size label n).octets n := by
  have hread := reads_size_capped label n
  rwa [Nat.min_eq_left h] at hread

theorem reads_u16 (label : String) (x : UInt16) : Reads u16 (Piece.u16 label x).octets x := by
  have hread := (reads_number (k := 2) (n := x.toNat) x.toNat_lt).map (g := UInt16.ofNat)
  rwa [UInt16.ofNat_toNat] at hread

theorem reads_u32 (label : String) (x : UInt32) : Reads u32 (Piece.u32 label x).octets x := by
  have hread := (reads_number (k := 4) (n := x.toNat) x.toNat_lt).map (g := UInt32.ofNat)
  rwa [UInt32.ofNat_toNat] at hread

theorem reads_u64 (label : String) (x : UInt64) : Reads u64 (Piece.u64 label x).octets x := by
  have hread := (reads_number (k := 8) (n := x.toNat) x.toNat_lt).map (g := UInt64.ofNat)
  rwa [UInt64.ofNat_toNat] at hread

theorem reads_take (b : Bytes) : Reads (take b.length) b b := by
  intro rest
  rw [take]
  simp

theorem reads_string {label : String} {b : Bytes} (h : b.length ≤ Piece.maxSize) :
    Reads string (Piece.join (Piece.string label b)) b := by
  have hread := (reads_size h : Reads size (Piece.size label b.length).octets _).bind (reads_take b)
  simpa [string, Piece.string] using hread

/-- A repetition reads the encodings of all items. -/
theorem reads_replicate {d : Decoder α} (enc : α → Bytes) {xs : List α}
    (h : ∀ x ∈ xs, Reads d (enc x) x) : Reads (replicate xs.length d) (xs.flatMap enc) xs := by
  induction xs with
  | nil => exact reads_pure []
  | cons x xs ih =>
    obtain ⟨hx, hxs⟩ := List.forall_mem_cons.1 h
    exact hx.bind ((ih hxs).map)

/-! ## Reading nothing else -/

/-- On input that starts with the octets `b` the decoder takes just these and yields `x`, if it
yields anything. -/
def ReadsOnly (d : Decoder α) (b : Bytes) (x : α) : Prop :=
  ∀ rest v r, d (b ++ rest) = .ok (v, r) → v = x ∧ r = rest

theorem Reads.only {d : Decoder α} {b : Bytes} {x : α} (h : Reads d b x) : ReadsOnly d b x := by
  intro rest v r hrun
  rw [h rest] at hrun
  cases hrun
  exact ⟨rfl, rfl⟩

theorem readsOnly_malformed (d : FormatDefect) (b : Bytes) (x : α) :
    ReadsOnly (malformed d : Decoder α) b x :=
  fun _ _ _ hrun => by cases hrun

theorem ReadsOnly.bind {x : Decoder α} {f : α → Decoder β} {b c : Bytes} {a : α} {v : β}
    (hx : ReadsOnly x b a) (hf : ReadsOnly (f a) c v) : ReadsOnly (x >>= f) (b ++ c) v := by
  intro rest w r hrun
  rw [List.append_assoc] at hrun
  obtain ⟨a', m, hfirst, hsecond⟩ := bind_eq_ok.1 hrun
  obtain ⟨rfl, rfl⟩ := hx _ _ _ hfirst
  exact hf _ _ _ hsecond

/-- A step whose result is only wrapped. -/
theorem ReadsOnly.map {x : Decoder α} {g : α → β} {b : Bytes} {a : α} (hx : ReadsOnly x b a) :
    ReadsOnly (x >>= fun a => pure (g a)) b (g a) := by
  simpa using hx.bind (f := fun a => pure (g a)) (reads_pure (g a)).only

/-- A repetition over the encodings of some items yields what each of them is read as. -/
theorem readsOnly_replicate {d : Decoder α} (enc : β → Bytes) (g : β → α) {xs : List β}
    (h : ∀ x ∈ xs, ReadsOnly d (enc x) (g x)) :
    ReadsOnly (replicate xs.length d) (xs.flatMap enc) (xs.map g) := by
  induction xs with
  | nil => exact (reads_pure []).only
  | cons x xs ih =>
    obtain ⟨hx, hxs⟩ := List.forall_mem_cons.1 h
    exact hx.bind ((ih hxs).map)

/-! ## Points and scalars -/

variable [Suite]

theorem reads_point {y : PointName} (h : (Suite.decompress y).isSome) : Reads point y.1 y := by
  intro rest
  have hvalid : ¬(Suite.decompress y).isNone := by simpa [Option.isSome_iff_ne_none] using h
  rw [point, bind_apply, reads_octets y, Outcome.ok_bind, if_neg hvalid]
  rfl

/-- A block that encodes no group element is refused, any other is read as it stands. -/
theorem readsOnly_point (y : PointName) : ReadsOnly point y.1 y := by
  intro rest v r hrun
  rw [point, bind_apply, reads_octets y, Outcome.ok_bind] at hrun
  split at hrun
  · cases hrun
  · cases hrun
    exact ⟨rfl, rfl⟩

theorem reads_scalar [Suite.Lawful] (x : Suite.Scalar) :
    Reads scalar (Suite.encodeScalar x).1 x := by
  intro rest
  rw [scalar, bind_apply, reads_octets, Outcome.ok_bind]
  simp only [Suite.Lawful.decodeScalar_encodeScalar]
  rfl

end Covenant.Decoder

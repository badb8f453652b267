/-
  LEVELS — decoders that read a known string once they have levels enough.

  A decoder of things that nest without a limit is a family `D` with one member for each number of
  levels.  `Decoder.EventuallyReads D b x` says that from some number of levels on every member
  takes exactly `b` and yields `x`.  How many levels that are is of no interest while an encoding is
  put together from its parts: two parts are read once the larger of their two numbers is reached.

  In the end the number matters, as the readers start with one level more than there are octets.
  That is enough, because a faithful family does not change any more from there on
  (`EventuallyReads.levelled`).

  1. **Steps** — sequences, repetitions and counted lists, with and without levels.
  2. **Readers** — with levels for all octets, what is read eventually is read.
-/
import Covenant.Proofs.Codec.Faithful

namespace Covenant.Decoder

variable {α β : Type}

/-! ## Counted lists -/

/-- Items that are not empty take at least as many octets as there are items. -/
theorem length_le_flatMap (enc : α → Bytes) {xs : List α} (hne : ∀ x ∈ xs, enc x ≠ []) :
    xs.length ≤ (xs.flatMap enc).length := by
  induction xs with
  | nil => exact Nat.le_refl 0
  | cons x xs ih =>
    obtain ⟨hx, hxs⟩ := List.forall_mem_cons.1 hne
    have hpos := List.length_pos_of_ne_nil hx
    have hrest := ih hxs
    rw [List.flatMap_cons, List.length_append, List.length_cons]
    omega

/-- A count is read when at least as many octets follow it. -/
theorem count_append {label : String} {m : Nat} {b : Bytes} (h : m ≤ Piece.maxSize)
    (hle : m ≤ b.length) : count ((Piece.size label m).octets ++ b) = .ok (m, b) :=
  count_eq_ok.2 ⟨reads_size h b, hle⟩

/-- The guard of a count never refuses the encoding of a list: there are enough octets in it. -/
theorem reads_countedThen {d : Decoder α} {f : List α → Decoder β} (enc : α → Bytes)
    {label : String} {xs : List α} {c : Bytes} {v : β} (hlen : xs.length ≤ Piece.maxSize)
    (hne : ∀ x ∈ xs, enc x ≠ []) (h : ∀ x ∈ xs, Reads d (enc x) x) (hf : Reads (f xs) c v) :
    Reads (count >>= fun m => replicate m d >>= f)
      ((Piece.size label xs.length).octets ++ (xs.flatMap enc ++ c)) v := by
  intro rest
  have hfew : xs.length ≤ (xs.flatMap enc ++ c ++ rest).length := by
    have hle := length_le_flatMap enc hne
    rw [List.append_assoc, List.length_append]
    omega
  rw [List.append_assoc, bind_apply, count_append hlen hfew, Outcome.ok_bind]
  exact ((reads_replicate enc h).bind hf) rest

theorem reads_counted {d : Decoder α} (enc : α → Bytes) {label : String} {xs : List α}
    (hlen : xs.length ≤ Piece.maxSize) (hne : ∀ x ∈ xs, enc x ≠ [])
    (h : ∀ x ∈ xs, Reads d (enc x) x) :
    Reads (count >>= fun m => replicate m d)
      ((Piece.size label xs.length).octets ++ xs.flatMap enc) xs := by
  have hread : Reads (count >>= fun m => replicate m d >>= pure)
      ((Piece.size label xs.length).octets ++ (xs.flatMap enc ++ [])) xs :=
    reads_countedThen enc hlen hne h (reads_pure xs)
  simpa using hread

/-! ## Reading with levels enough -/

/-- From some number of levels on, every member of the family takes the octets `b` off the front of
any input and yields `x`. -/
def EventuallyReads (D : Nat → Decoder α) (b : Bytes) (x : α) : Prop :=
  ∃ m, ∀ l, m ≤ l → Reads (D l) b x

theorem Reads.eventually {d : Decoder α} {b : Bytes} {x : α} (h : Reads d b x) :
    EventuallyReads (fun _ => d) b x :=
  ⟨0, fun _ _ => h⟩

namespace EventuallyReads

theorem bind {X : Nat → Decoder α} {F : Nat → α → Decoder β} {b c : Bytes} {a : α} {v : β}
    (hx : EventuallyReads X b a) (hf : EventuallyReads (fun l => F l a) c v) :
    EventuallyReads (fun l => X l >>= F l) (b ++ c) v := by
  obtain ⟨m, hx⟩ := hx
  obtain ⟨m', hf⟩ := hf
  exact ⟨max m m', fun l hl => (hx l (by omega)).bind (hf l (by omega))⟩

/-- A step whose result is only wrapped. -/
theorem map {X : Nat → Decoder α} {g : α → β} {b : Bytes} {a : α} (hx : EventuallyReads X b a) :
    EventuallyReads (fun l => X l >>= fun a => pure (g a)) b (g a) := by
  obtain ⟨m, hx⟩ := hx
  exact ⟨m, fun l hl => (hx l hl).map⟩

theorem ite_pos {p : Prop} [Decidable p] {X Y : Nat → Decoder α} {b : Bytes} {v : α} (hp : p)
    (h : EventuallyReads X b v) : EventuallyReads (fun l => if p then X l else Y l) b v := by
  simpa only [if_pos hp] using h

theorem ite_neg {p : Prop} [Decidable p] {X Y : Nat → Decoder α} {b : Bytes} {v : α} (hp : ¬p)
    (h : EventuallyReads Y b v) : EventuallyReads (fun l => if p then X l else Y l) b v := by
  simpa only [if_neg hp] using h

/-- An outcome that is settled with levels enough. -/
theorem lift {G : Nat → Except CodecError α} {v : α} (h : ∃ m, ∀ l, m ≤ l → G l = .ok v) :
    EventuallyReads (fun l => Decoder.lift (G l)) [] v := by
  obtain ⟨m, h⟩ := h
  refine ⟨m, fun l hl rest => ?_⟩
  show (G l).map (fun x => (x, rest)) = _
  rw [h l hl]
  rfl

/-- Finitely many items are read from the largest of their numbers of levels on. -/
theorem all {D : Nat → Decoder α} (enc : α → Bytes) {xs : List α}
    (h : ∀ x ∈ xs, EventuallyReads D (enc x) x) :
    ∃ m, ∀ l, m ≤ l → ∀ x ∈ xs, Reads (D l) (enc x) x := by
  induction xs with
  | nil => exact ⟨0, fun _ _ => nofun⟩
  | cons x xs ih =>
    obtain ⟨⟨m, hx⟩, hxs⟩ := List.forall_mem_cons.1 h
    obtain ⟨m', hxs⟩ := ih hxs
    exact ⟨max m m', fun l hl => List.forall_mem_cons.2 ⟨hx l (by omega), hxs l (by omega)⟩⟩

theorem replicate {D : Nat → Decoder α} (enc : α → Bytes) {xs : List α}
    (h : ∀ x ∈ xs, EventuallyReads D (enc x) x) :
    EventuallyReads (fun l => Decoder.replicate xs.length (D l)) (xs.flatMap enc) xs := by
  obtain ⟨m, hall⟩ := all enc h
  exact ⟨m, fun l hl => reads_replicate enc (hall l hl)⟩

theorem counted {D : Nat → Decoder α} (enc : α → Bytes) {label : String} {xs : List α}
    (hlen : xs.length ≤ Piece.maxSize) (hne : ∀ x ∈ xs, enc x ≠ [])
    (h : ∀ x ∈ xs, EventuallyReads D (enc x) x) :
    EventuallyReads (fun l => count >>= fun m => Decoder.replicate m (D l))
      ((Piece.size label xs.length).octets ++ xs.flatMap enc) xs := by
  obtain ⟨m, hall⟩ := all enc h
  exact ⟨m, fun l hl => reads_counted enc hlen hne (hall l hl)⟩

theorem countedThen {D : Nat → Decoder α} {F : Nat → List α → Decoder β} (enc : α → Bytes)
    {label : String} {xs : List α} {c : Bytes} {v : β} (hlen : xs.length ≤ Piece.maxSize)
    (hne : ∀ x ∈ xs, enc x ≠ []) (h : ∀ x ∈ xs, EventuallyReads D (enc x) x)
    (hf : EventuallyReads (fun l => F l xs) c v) :
    EventuallyReads (fun l => count >>= fun m => Decoder.replicate m (D l) >>= F l)
      ((Piece.size label xs.length).octets ++ (xs.flatMap enc ++ c)) v := by
  obtain ⟨m, hall⟩ := all enc h
  obtain ⟨m', hf⟩ := hf
  exact ⟨max m m', fun l hl =>
    reads_countedThen enc hlen hne (hall l (by omega)) (hf l (by omega))⟩

/-- One level more does no harm. -/
theorem succ {D : Nat → Decoder α} {b : Bytes} {x : α}
    (h : EventuallyReads (fun l => D (l + 1)) b x) : EventuallyReads D b x := by
  obtain ⟨m, h⟩ := h
  refine ⟨m + 1, fun l hl => ?_⟩
  obtain ⟨l', rfl⟩ := Nat.exists_eq_add_of_le' (Nat.le_of_add_left_le hl)
  exact h l' (by omega)

/-! ## Readers -/

/-- **A level for each octet is enough**: a faithful family has settled by then. -/
theorem levelled {D : Nat → Decoder α} {Q : α → Bytes → Prop} (hD : ∀ n, Faithful n 1 D Q)
    {b : Bytes} {x : α} (h : EventuallyReads D b x) :
    Reads (fun b => D (b.length + 1) b) b x := by
  intro rest
  obtain ⟨m, hread⟩ := h
  -- enough for `b`, and no fewer than the reader has
  let l := max m ((b ++ rest).length + 1)
  have hsettled : D ((b ++ rest).length + 1) (b ++ rest) = D l (b ++ rest) :=
    (hD ((b ++ rest).length + 2)).steady (by omega) (Nat.le_refl _) (Nat.le_max_right ..)
  show D ((b ++ rest).length + 1) (b ++ rest) = _
  rw [hsettled]
  exact hread l (Nat.le_max_left ..) rest

end EventuallyReads

end Covenant.Decoder

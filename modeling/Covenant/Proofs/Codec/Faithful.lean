/-
  FAITHFUL — decoders that read again what they took.

  A decoder takes some octets off the front of its input.  It is faithful when these octets alone
  decide the outcome: the same octets with anything else behind them are read to the same value.
  What a value has to do with the octets it was read from is a relation `Q`; mostly it says that
  they are the value's encoding (`Spells`).

  Boxes nest without a limit of their own, and their decoder is a family `D` with one member for
  each number of levels.  An input has at least one octet for each level, so all members with as
  many levels as there are octets agree, and that is the other half of `Faithful n k D Q`.  There
  `k` counts the octets that are gone already: they too pay for levels.  `n` bounds the whole input
  and is what the induction over nested boxes is on.

  1. **Steps** — results, failures, checks and sequences (`Faithful.bind`) keep faithfulness.
  2. **Items** — octets, numbers, points, byte strings.
  3. **Lists** — repetitions, and repetitions behind a count of items that are not empty.
  4. **Whole strings** — what is read when nothing may be left.
-/
import Covenant.Proofs.Codec.Reading

namespace Covenant.Decoder

variable {α β : Type} {n k : Nat} {Q : α → Bytes → Prop} {R : β → Bytes → Prop}

/-- With `k` octets gone already and an input of fewer than `n` octets in all, the members of the
family that have a level for each octet agree, and read again what they took.  `Q` relates a value
to the octets that were taken for it. -/
structure Faithful (n k : Nat) (D : Nat → Decoder α) (Q : α → Bytes → Prop) : Prop where
  steady : ∀ {b l l'}, b.length + k < n → b.length + k ≤ l → b.length + k ≤ l' → D l b = D l' b
  taken : ∀ {b l v r}, b.length + k < n → b.length + k ≤ l → D l b = .ok (v, r) →
    ∃ c, b = c ++ r ∧ Q v c ∧ ∀ r' l', (c ++ r').length + k ≤ l' → D l' (c ++ r') = .ok (v, r')

/-- The octets are the pieces of the value strung together, and the value has a property. -/
abbrev Spells (ps : α → List Piece) (P : α → Prop) (v : α) (c : Bytes) : Prop :=
  c = Piece.join (ps v) ∧ P v

namespace Faithful

/-! ## Steps -/

theorem pure {a : α} (h : Q a []) : Faithful n k (fun _ => Pure.pure a) Q where
  steady _ _ _ := rfl
  taken _ _ hrun := by
    cases hrun
    exact ⟨[], rfl, h, fun _ _ _ => rfl⟩

theorem fail (e : CodecError) : Faithful n k (fun _ => (throw e : Decoder α)) Q where
  steady _ _ _ := rfl
  taken _ _ hrun := by cases hrun

theorem malformed (d : FormatDefect) :
    Faithful n k (fun _ => (Decoder.malformed d : Decoder α)) Q where
  steady _ _ _ := rfl
  taken _ _ hrun := by cases hrun

/-- A family that is faithful to the front of an input is so after more of it is gone. -/
theorem mono {D : Nat → Decoder α} {k' : Nat} (h : Faithful n k D Q) (hk : k ≤ k') :
    Faithful n k' D Q where
  steady hn hl hl' := h.steady (by omega) (by omega) (by omega)
  taken hn hl hrun := by
    obtain ⟨c, hb, hq, hagain⟩ := h.taken (by omega) (by omega) hrun
    exact ⟨c, hb, hq, fun r' l' hl' => hagain r' l' (by omega)⟩

theorem imp {D : Nat → Decoder α} {Q' : α → Bytes → Prop} (h : Faithful n k D Q)
    (hq : ∀ v c, Q v c → Q' v c) : Faithful n k D Q' where
  steady := h.steady
  taken hn hl hrun := by
    obtain ⟨c, hb, hc, hagain⟩ := h.taken hn hl hrun
    exact ⟨c, hb, hq _ _ hc, hagain⟩

/-- The octets that the first step took are gone for the second. -/
theorem bind {X : Nat → Decoder α} {F : Nat → α → Decoder β} (hx : Faithful n k X Q)
    (hf : ∀ a c, Q a c → Faithful n (k + c.length) (fun l => F l a) fun v c' => R v (c ++ c')) :
    Faithful n k (fun l => X l >>= F l) R where
  steady {b l l'} hn hl hl' := by
    -- both runs agree on the first decoder; what it leaves is a suffix, on which the second is
    -- steady
    rw [bind_apply, bind_apply, hx.steady hn hl hl']
    cases hfirst : X l' b with
    | error e => rfl
    | ok s =>
      obtain ⟨a, r⟩ := s
      obtain ⟨c, rfl, hq, -⟩ := hx.taken hn hl' hfirst
      rw [List.length_append] at hn hl hl'
      have hafter : r.length + (k + c.length) = c.length + r.length + k := by omega
      exact (hf a c hq).steady (hafter ▸ hn) (hafter ▸ hl) (hafter ▸ hl')
  taken {b l v r} hn hl hrun := by
    obtain ⟨a, m, hfirst, hrest⟩ := bind_eq_ok.1 hrun
    obtain ⟨c, rfl, hq, hagain⟩ := hx.taken hn hl hfirst
    rw [List.length_append] at hn hl
    obtain ⟨c', rfl, hr, hagain'⟩ := (hf a c hq).taken (by omega) (by omega) hrest
    -- reread with any rest: the bound of the whole covers each part, since the parts are no longer
    refine ⟨c ++ c', (List.append_assoc ..).symm, hr, fun r' l' hl' => ?_⟩
    rw [List.append_assoc] at hl' ⊢
    have hlen : (c ++ (c' ++ r')).length = c.length + (c' ++ r').length := List.length_append
    rw [bind_apply, hagain _ l' hl', Outcome.ok_bind]
    exact hagain' r' l' (by omega)

/-- A step whose result is only wrapped. -/
theorem map {X : Nat → Decoder α} {g : α → β} (hx : Faithful n k X Q)
    (hg : ∀ a c, Q a c → R (g a) c) : Faithful n k (fun l => X l >>= fun a => Pure.pure (g a)) R :=
  hx.bind fun a c h => .pure (by simpa using hg a c h)

theorem ite {p : Prop} [Decidable p] {X Y : Nat → Decoder α} (hx : p → Faithful n k X Q)
    (hy : ¬p → Faithful n k Y Q) : Faithful n k (fun l => if p then X l else Y l) Q := by
  by_cases h : p
  · simpa only [if_pos h] using hx h
  · simpa only [if_neg h] using hy h

/-- A check in front of a decoder, which knows its outcome. -/
theorem check {p : Prop} [Decidable p] {d : FormatDefect} {Y : Nat → Decoder α}
    (hy : ¬p → Faithful n k Y Q) :
    Faithful n k (fun l => if p then Decoder.malformed d >>= fun _ : PUnit => Y l else Y l) Q :=
  ite (fun _ => bind (malformed (Q := fun _ _ => False) d) fun _ _ h => h.elim) hy

/-- An outcome that is the same at all levels that suffice. -/
theorem lift {G : Nat → Except CodecError α} {P : α → Prop}
    (hsteady : ∀ l l', k < n → k ≤ l → k ≤ l' → G l = G l')
    (hvalue : ∀ l v, k < n → k ≤ l → G l = .ok v → P v) :
    Faithful n k (fun l => Decoder.lift (G l)) fun v c => c = [] ∧ P v where
  steady {b l l'} hn hl hl' := by rw [hsteady l l' (by omega) (by omega) (by omega)]
  taken {b l v r} hn hl hrun := by
    obtain ⟨w, hG, heq⟩ := Outcome.map_eq_ok.1 hrun
    cases heq
    refine ⟨[], rfl, ⟨rfl, hvalue l v (by omega) (by omega) hG⟩, fun r' l' hl' => ?_⟩
    rw [hsteady l' l (by omega) (by omega) (by omega), hG]
    rfl

/-! ## Families without levels -/

/-- A decoder without levels is faithful when it reads again what it took. -/
theorem ofPlain {d : Decoder α}
    (h : ∀ {b v r}, d b = .ok (v, r) → ∃ c, b = c ++ r ∧ Q v c ∧ Reads d c v) :
    Faithful n k (fun _ => d) Q where
  steady _ _ _ := rfl
  taken _ _ hrun := by
    obtain ⟨c, hb, hq, hreads⟩ := h hrun
    exact ⟨c, hb, hq, fun r' _ _ => hreads r'⟩

/-- What a decoder without levels took and reads again. -/
theorem plain {d : Decoder α} (h : ∀ n, Faithful n 0 (fun _ => d) Q) {b r : Bytes} {v : α}
    (hrun : d b = .ok (v, r)) : ∃ c, b = c ++ r ∧ Q v c ∧ Reads d c v := by
  obtain ⟨c, hb, hq, hagain⟩ :=
    (h (b.length + 1)).taken (l := b.length) (by omega) (by omega) hrun
  exact ⟨c, hb, hq, fun r' => hagain r' _ (Nat.le_refl _)⟩

/-- One level, spent on the first octet. -/
theorem succ {D : Nat → Decoder α} (h : Faithful n 0 (fun l => D (l + 1)) Q) :
    Faithful (n + 1) 1 D Q where
  steady {b l l'} hn hl hl' := by
    obtain ⟨m, rfl⟩ := Nat.exists_eq_add_of_le' (Nat.le_of_add_left_le hl)
    obtain ⟨m', rfl⟩ := Nat.exists_eq_add_of_le' (Nat.le_of_add_left_le hl')
    exact h.steady (by omega) (by omega) (by omega)
  taken {b l v r} hn hl hrun := by
    obtain ⟨m, rfl⟩ := Nat.exists_eq_add_of_le' (Nat.le_of_add_left_le hl)
    obtain ⟨c, hb, hq, hagain⟩ := h.taken (l := m) (by omega) (by omega) hrun
    refine ⟨c, hb, hq, fun r' l' hl' => ?_⟩
    obtain ⟨m', rfl⟩ := Nat.exists_eq_add_of_le' (Nat.le_of_add_left_le hl')
    exact hagain r' m' (by omega)

/-- A decoder that gives itself a level for each octet and one more. -/
theorem levelled {D : Nat → Decoder α} (h : ∀ n, Faithful n 1 D Q) :
    Faithful n k (fun _ b => D (b.length + 1) b)
      fun v c => Q v c ∧ Reads (fun b => D (b.length + 1) b) c v :=
  ofPlain fun {b v r} hrun => by
    obtain ⟨c, hb, hq, hagain⟩ :=
      (h (b.length + 2)).taken (l := b.length + 1) (by omega) (by omega) hrun
    have hreads : Reads (fun b => D (b.length + 1) b) c v := fun r' => hagain r' _ (Nat.le_refl _)
    exact ⟨c, hb, ⟨hq, hreads⟩, hreads⟩

end Faithful

/-! ## Items -/

theorem length_splitOctets {m : Nat} {b r : Bytes} {s : Octets m}
    (h : Bytes.splitOctets m b = some (s, r)) : b = s.1 ++ r := by
  induction m generalizing b with
  | zero =>
    simp only [Bytes.splitOctets, Option.some.injEq, Prod.mk.injEq] at h
    obtain ⟨rfl, rfl⟩ := h
    rfl
  | succ m ih =>
    cases b with
    | nil => cases h
    | cons x b =>
      simp only [Bytes.splitOctets, Option.map_eq_some_iff, Prod.mk.injEq] at h
      obtain ⟨⟨t, r'⟩, ht, rfl, rfl⟩ := h
      rw [ih ht]
      rfl

theorem faithful_u8 : Faithful n k (fun _ => u8) fun x c => c = [x] :=
  .ofPlain fun {b x r} hrun => by
    cases b with
    | nil => cases hrun
    | cons y b =>
      cases hrun
      exact ⟨[x], rfl, rfl, reads_u8 x⟩

theorem faithful_octets {m : Nat} : Faithful n k (fun _ => octets m) fun s c => c = s.1 :=
  .ofPlain fun {b s r} hrun => by
    simp only [octets] at hrun
    split at hrun
    · cases hrun
    · rename_i hsplit
      cases hrun
      exact ⟨s.1, length_splitOctets hsplit, rfl, reads_octets s⟩

/-- A number is read from its own octets. -/
theorem faithful_number {m : Nat} :
    Faithful n k (fun _ => number m) fun x c => c = Bytes.toLE m x ∧ x < Bytes.capacity m :=
  .map faithful_octets fun s _ h => by
    subst h
    have hspelt := congrArg Subtype.val (Octets.ofNatLE_ofLE s)
    have hfits := Bytes.ofLE_lt s.1
    rw [s.2] at hfits
    exact ⟨hspelt.symm, hfits⟩

theorem faithful_u16 : Faithful n k (fun _ => u16) fun x c => c = Bytes.toLE 2 x.toNat :=
  .map faithful_number fun x _ ⟨h, hx⟩ => by
    rw [UInt16.toNat_ofNat_of_lt' hx]
    exact h

theorem faithful_u32 : Faithful n k (fun _ => u32) fun x c => c = Bytes.toLE 4 x.toNat :=
  .map faithful_number fun x _ ⟨h, hx⟩ => by
    rw [UInt32.toNat_ofNat_of_lt' hx]
    exact h

theorem faithful_u64 : Faithful n k (fun _ => u64) fun x c => c = Bytes.toLE 8 x.toNat :=
  .map faithful_number fun x _ ⟨h, hx⟩ => by
    rw [UInt64.toNat_ofNat_of_lt' hx]
    exact h

theorem faithful_size : Faithful n k (fun _ => size)
    fun m c => c = (Piece.size "" m).octets ∧ m ≤ Piece.maxSize :=
  faithful_number.imp fun m _ ⟨h, hm⟩ => by
    have hle : m ≤ Piece.maxSize := Nat.le_of_lt_succ hm
    exact ⟨by rw [Piece.size, Nat.min_eq_left hle]; exact h, hle⟩

theorem faithful_take {m : Nat} : Faithful n k (fun _ => take m) fun s c => c = s ∧ s.length = m :=
  .ofPlain fun {b s r} hrun => by
    simp only [take] at hrun
    split at hrun
    · rename_i hlen
      cases hrun
      refine ⟨b.take m, (List.take_append_drop m b).symm, ⟨rfl, hlen⟩, ?_⟩
      have hreads := reads_take (b.take m)
      rwa [hlen] at hreads
    · cases hrun

theorem faithful_string : Faithful n k (fun _ => string)
    fun s c => c = Piece.join (Piece.string "" s) ∧ s.length ≤ Piece.maxSize :=
  .bind faithful_size fun m c ⟨hc, hm⟩ => faithful_take.imp fun s c' ⟨hc', hs⟩ => by
    subst hc hc' hs
    exact ⟨by simp [Piece.string], hm⟩

theorem faithful_point [Suite] : Faithful n k (fun _ => point)
    fun y c => c = y.1 ∧ (Suite.decompress y).isSome :=
  .bind faithful_octets fun y c hc => by
    by_cases h : (Suite.decompress y).isNone
    · simp only [if_pos h]
      exact .bind (.fail (Q := fun _ _ => False) _) fun _ _ h => h.elim
    · simp only [if_neg h]
      refine .pure ⟨by simpa using hc, ?_⟩
      simpa [Option.isSome_iff_ne_none] using h

/-! ## Lists -/

/-- The octets are those of the items strung together. -/
inductive Strung (Q : α → Bytes → Prop) : List α → Bytes → Prop
  | nil : Strung Q [] []
  | cons {v : α} {c : Bytes} {vs : List α} {cs : Bytes} : Q v c → Strung Q vs cs →
    Strung Q (v :: vs) (c ++ cs)

theorem Strung.imp_of_mem {Q' : α → Bytes → Prop} {vs : List α} {c : Bytes} (h : Strung Q vs c)
    (hq : ∀ v ∈ vs, ∀ c, Q v c → Q' v c) : Strung Q' vs c := by
  induction h with
  | nil => exact .nil
  | cons hv _ ih =>
    obtain ⟨hfirst, hrest⟩ := List.forall_mem_cons.1 hq
    exact .cons (hfirst _ hv) (ih hrest)

theorem Strung.imp {Q' : α → Bytes → Prop} {vs : List α} {c : Bytes} (h : Strung Q vs c)
    (hq : ∀ v c, Q v c → Q' v c) : Strung Q' vs c :=
  h.imp_of_mem fun v _ => hq v

/-- What the octets of an item say of it holds of every item. -/
theorem Strung.forall_mem {P : α → Prop} {vs : List α} {c : Bytes} (h : Strung Q vs c)
    (hp : ∀ v c, Q v c → P v) : ∀ v ∈ vs, P v := by
  induction h with
  | nil => simp
  | cons hv _ ih => exact List.forall_mem_cons.2 ⟨hp _ _ hv, ih⟩

/-- Items that were read from their encodings. -/
theorem Strung.spells {ps : α → List Piece} {P : α → Prop} {vs : List α} {c : Bytes}
    (h : Strung (Spells ps P) vs c) : c = Piece.join (vs.flatMap ps) ∧ ∀ v ∈ vs, P v := by
  induction h with
  | nil => simp
  | cons hv _ ih =>
    obtain ⟨rfl, hv⟩ := hv
    obtain ⟨rfl, hvs⟩ := ih
    exact ⟨by simp, List.forall_mem_cons.2 ⟨hv, hvs⟩⟩

/-- Items whose encodings have the lengths of the octets they were read from. -/
theorem Strung.length_eq {ps : α → List Piece} {vs : List α} {c : Bytes}
    (h : Strung (fun v c => c.length = (Piece.join (ps v)).length) vs c) :
    c.length = (Piece.join (vs.flatMap ps)).length := by
  induction h with
  | nil => rfl
  | cons hv _ ih => simp [hv, ih]

/-- Each item may stand there as its own encoding. -/
theorem Strung.flatMap (enc : α → Bytes) {vs : List α} (h : ∀ v ∈ vs, Q v (enc v)) :
    Strung Q vs (vs.flatMap enc) := by
  induction vs with
  | nil => exact .nil
  | cons v vs ih =>
    obtain ⟨hv, hvs⟩ := List.forall_mem_cons.1 h
    exact .cons hv (ih hvs)

/-- Where one item has another form, so do they all. -/
theorem Strung.exists_ne_flatMap (enc : α → Bytes) {vs : List α} (h : ∀ v ∈ vs, Q v (enc v))
    {v : α} (hv : v ∈ vs) {c : Bytes} (hc : Q v c) (hne : c ≠ enc v) :
    ∃ cs, Strung Q vs cs ∧ cs ≠ vs.flatMap enc := by
  induction vs with
  | nil => cases hv
  | cons w vs ih =>
    obtain ⟨hw, hvs⟩ := List.forall_mem_cons.1 h
    rcases List.mem_cons.1 hv with rfl | hv
    · exact ⟨_, .cons hc (.flatMap enc hvs), by simpa using hne⟩
    · obtain ⟨cs, hcs, hother⟩ := ih hvs hv
      exact ⟨_, .cons hw hcs, by simpa using hother⟩

/-- Items that stand there in forms that are read are read one after the other. -/
theorem Strung.reads {d : Decoder α} {vs : List α} {c : Bytes} (h : Strung Q vs c)
    (hd : ∀ v ∈ vs, ∀ c, Q v c → Reads d c v) : Reads (Decoder.replicate vs.length d) c vs := by
  induction h with
  | nil => exact reads_pure []
  | cons hv _ ih =>
    obtain ⟨hd, hds⟩ := List.forall_mem_cons.1 hd
    exact (hd _ hv).bind (ih hds).map

/-- There are at least as many octets as items that are not empty. -/
theorem Strung.length_le {vs : List α} {c : Bytes} (h : Strung Q vs c)
    (hne : ∀ v c, Q v c → c ≠ []) : vs.length ≤ c.length := by
  induction h with
  | nil => exact Nat.le_refl 0
  | cons hv _ ih =>
    have := List.length_pos_of_ne_nil (hne _ _ hv)
    rw [List.length_cons, List.length_append]
    omega

theorem Faithful.replicate {D : Nat → Decoder α} (h : Faithful n k D Q) (m : Nat) :
    Faithful n k (fun l => Decoder.replicate m (D l))
      fun vs c => vs.length = m ∧ Strung Q vs c := by
  induction m generalizing k with
  | zero => exact .pure ⟨rfl, .nil⟩
  | succ m ih =>
    exact h.bind fun v c hv => (ih (h.mono (Nat.le_add_right ..))).map fun vs cs ⟨hlen, hvs⟩ =>
      ⟨congrArg (· + 1) hlen, .cons hv hvs⟩

/-- A count is a size that the octets behind it can hold. -/
theorem count_eq_ok {b r : Bytes} {m : Nat} :
    count b = .ok (m, r) ↔ size b = .ok (m, r) ∧ m ≤ r.length := by
  rw [count, bind_apply]
  cases size b with
  | error e => simp
  | ok s =>
    obtain ⟨m', r'⟩ := s
    rw [Outcome.ok_bind, bind_apply, remaining, Outcome.ok_bind]
    by_cases h : r'.length < m'
    · rw [if_pos h, bind_apply, throw_apply, Outcome.error_bind]
      constructor
      · intro hrun
        cases hrun
      · rintro ⟨hrun, hle⟩
        cases hrun
        omega
    · rw [if_neg h]
      change Except.ok (m', r') = _ ↔ _
      constructor
      · intro hrun
        cases hrun
        exact ⟨rfl, Nat.not_lt.1 h⟩
      · exact fun hrun => hrun.1

/-- A count and that many items, none of which is empty: so a count that is read again finds enough
octets behind it. -/
theorem Faithful.counted {D : Nat → Decoder α} (h : Faithful n k D Q)
    (hne : ∀ v c, Q v c → c ≠ []) :
    Faithful n k (fun l => count >>= fun m => Decoder.replicate m (D l)) fun vs c =>
      vs.length ≤ Piece.maxSize ∧
        ∃ cs, c = (Piece.size "" vs.length).octets ++ cs ∧ Strung Q vs cs where
  steady {b l l'} hn hl hl' := by
    rw [bind_apply, bind_apply]
    cases hfirst : count b with
    | error e => rfl
    | ok s =>
      obtain ⟨m, r⟩ := s
      -- the announced count is read alike at both levels, so only the items matter
      obtain ⟨c, rfl, -, -⟩ :=
      Faithful.plain (fun _ => faithful_size) (count_eq_ok.1 hfirst).1
      rw [List.length_append] at hn hl hl'
      exact (h.replicate m).steady (b := r) (by omega) (by omega) (by omega)
  taken {b l vs r} hn hl hrun := by
    obtain ⟨m, b', hfirst, hitems⟩ := bind_eq_ok.1 hrun
    obtain ⟨c, rfl, ⟨rfl, hm⟩, -⟩ :=
      Faithful.plain (fun _ => faithful_size) (count_eq_ok.1 hfirst).1
    rw [List.length_append] at hn hl
    obtain ⟨cs, rfl, ⟨rfl, hvs⟩, hagain⟩ :=
      (h.replicate m).taken (b := b') (by omega) (by omega) hitems
    refine ⟨_, (List.append_assoc ..).symm, ⟨hm, cs, rfl, hvs⟩, fun r' l' hl' => ?_⟩
    rw [List.append_assoc] at hl' ⊢
    -- no item is empty, so the octets of the items alone let the count pass again
    have hcount : count ((Piece.size "" vs.length).octets ++ (cs ++ r')) =
        .ok (vs.length, cs ++ r') := by
      have hle := hvs.length_le hne
      refine count_eq_ok.2 ⟨reads_size hm (cs ++ r'), ?_⟩
      rw [List.length_append]
      omega
    rw [List.length_append] at hl'
    rw [bind_apply, hcount, Outcome.ok_bind]
    exact hagain r' l' (by omega)

/-- A count, that many items, and what follows them. -/
theorem Faithful.countedThen {D : Nat → Decoder α} {F : Nat → List α → Decoder β}
    (h : Faithful n k D Q) (hne : ∀ v c, Q v c → c ≠ [])
    (hf : ∀ vs cs, vs.length ≤ Piece.maxSize → Strung Q vs cs →
      Faithful n (k + ((Piece.size "" vs.length).octets ++ cs).length) (fun l => F l vs)
        fun v c' => R v ((Piece.size "" vs.length).octets ++ cs ++ c')) :
    Faithful n k (fun l => count >>= fun m => Decoder.replicate m (D l) >>= F l) R := by
  simpa only [bind_assoc] using (h.counted hne).bind (F := F) fun vs c ⟨hlen, cs, hc, hvs⟩ => by
    subst hc
    exact hf vs cs hlen hvs

/-! ## Whole strings -/

/-- Whole strings are read by all members with enough levels alike. -/
theorem Faithful.exactly_steady {D : Nat → Decoder α} (h : Faithful n k D Q) {b : Bytes}
    {l l' : Nat} (hn : b.length + k < n) (hl : b.length + k ≤ l) (hl' : b.length + k ≤ l') :
    (D l).exactly b = (D l').exactly b := by
  rw [exactly, exactly, h.steady hn hl hl']

theorem exactly_eq_ok {d : Decoder α} {b : Bytes} {v : α} :
    d.exactly b = .ok v ↔ d b = .ok (v, []) := by
  rw [exactly]
  split <;> simp_all

/-- A whole string that is read is what was taken. -/
theorem Faithful.exactly_taken {D : Nat → Decoder α} (h : Faithful n k D Q) {b : Bytes} {l : Nat}
    {v : α} (hn : b.length + k < n) (hl : b.length + k ≤ l) (hrun : (D l).exactly b = .ok v) :
    Q v b := by
  obtain ⟨c, rfl, hq, -⟩ := h.taken hn hl (exactly_eq_ok.1 hrun)
  simpa using hq

end Covenant.Decoder

/-
  TOWERS — how deep the objects nest that are read from elsewhere.

  Values, conditions and signed transactions come from strangers.  Each reader limits the levels of
  types, expressions and propositions, and so what it reads nests to a bounded depth between one
  box and the next.  The boxes themselves may stand on one another: a box holds values, and a value
  can be a box.  Nobody counts these, so there is no bound for all inputs, only one that grows with
  the input.

  1. **`SignedTx.nesting`** — a transaction nests as deep as its variables and its outputs.
  2. **`tower`** — boxes on top of one another, as high as one likes, which every reader takes.
  3. **`nesting_of_read`** — a constant number of levels, one more constant for each box on the way
     down, and octets of the input for each of those boxes.
-/
import Covenant.Proofs.Ledger.Transactions
import Covenant.Proofs.Script.Inside
import Covenant.Suite.Standard

namespace Covenant

open Decoder

/-! ## Transactions -/

/-- How deep the variables and the outputs of a transaction nest. -/
def SignedTx.parts (tx : SignedTx) : List Nesting :=
  (tx.inputs.flatMap fun i => i.extension.entries.map fun e w => e.2.nesting w) ++
  tx.outputs.map fun c w => c.nesting w

/-- How deep a transaction nests. -/
def SignedTx.nesting (w : Level → Nat) (tx : SignedTx) : Nat := deepest (tx.parts.map (· w))

theorem Bounded.transaction {base octets : Nat} {tx : SignedTx}
    (h : ∀ g ∈ tx.parts, Bounded base g octets) : Bounded base (tx.nesting ·) octets :=
  around (fun _ => 0) (fun _ _ => by
    rw [Nat.zero_add, SignedTx.nesting, deepest_le_iff, List.forall_mem_map]) rfl (Nat.le_refl 0) h

section

variable [Suite]

/-- Variables are bounded when those before them are. -/
theorem Extension.takes_bounded_entries (octets count : Nat) {x : Extension}
    (hx : ∀ e ∈ x.entries, Bounded Value.maxLevels (e.2.nesting ·) octets) :
    Takes (entriesDecoder count x) fun y n =>
      ∀ e ∈ y.entries, Bounded Value.maxLevels (e.2.nesting ·) (octets + n) := by
  induction count generalizing x octets with
  | zero => exact .pure hx
  | succ count ih =>
    refine .bind (.any .u8) fun id n _ => .bind Value.takes_bounded_decoder fun v n' hv =>
      .check fun hnew => ?_
    -- the order in which variables are kept does not matter here, only which ones there are
    have hput : (x.insert id v).entries.Perm ((id, v) :: x.entries) :=
      perm_put (get?_eq_none_iff.1 (Option.not_isSome_iff_eq_none.1 hnew))
    have hinsert : ∀ e ∈ (x.insert id v).entries,
        Bounded Value.maxLevels (e.2.nesting ·) (octets + (n + n')) := fun e he => by
      rcases List.mem_cons.1 (hput.mem_iff.1 he) with rfl | he
      · exact hv.enlarge (by omega)
      · exact (hx e he).enlarge (by omega)
    exact (ih _ hinsert).imp fun y m hy e he => (hy e he).enlarge (by omega)

theorem SignedInput.takes_bounded : Takes SignedInput.decoder fun i n =>
    ∀ e ∈ i.extension.entries, Bounded Value.maxLevels (e.2.nesting ·) n := by
  have hextension : Takes Extension.decoder fun x n =>
      ∀ e ∈ x.entries, Bounded Value.maxLevels (e.2.nesting ·) n :=
    .bind .number fun count _ _ =>
      (Extension.takes_bounded_entries 0 count (x := .empty) (fun _ h => nomatch h)).imp
        fun x n hx e he => (hx e he).enlarge (by omega)
  exact .bind .octets fun boxId _ _ => .bind .string fun proof _ _ =>
    .bind hextension fun x n hx => .pure fun e he => (hx e he).enlarge (by omega)

theorem SignedTx.takes_bounded :
    Takes SignedTx.decoder fun tx n => Bounded Condition.maxLevels (tx.nesting ·) n := by
  refine .bind .number fun k _ _ => .bind (SignedInput.takes_bounded.replicate ?_ k)
    fun inputs n hinputs => .bind .number fun k' _ _ => .bind (.any (.replicate (.octets 32) k'))
    fun dataInputs _ _ => .bind .number fun k'' _ _ => .check fun _ =>
    .bind (Candidate.takes_bounded_decoder.replicate Bounded.enlarge k'') fun outputs n' houtputs =>
    .pure (.transaction ?_)
  · exact fun hle h e he => (h e he).enlarge hle
  · rw [parts]
    simp only [List.forall_mem_append, List.forall_mem_flatMap, List.forall_mem_map]
    refine ⟨fun i hi e he => (hinputs i hi e he).mono (Nat.le_add_left _ _) (by omega), ?_⟩
    exact fun c hc => (houtputs c hc).enlarge (by omega)

end

/-! ## Towers -/

/-- An output for everybody, with a value in its register. -/
def Value.held (v : Value) : Candidate := ⟨1000, .new (.const (.bool true)), [], [v], 7⟩

theorem Value.nesting_held (w : Level → Nat) (v : Value) :
    v.held.nesting w = max (w .expression + w .value) (v.nesting w) := by
  simp [held, Candidate.nesting, Condition.new, Condition.nesting, Expr.nesting, nesting,
    nestingAll, Atom.nesting]

/-- So many boxes, each in the register of the next. -/
def tower : Nat → Value
  | 0 => .bool true
  | n + 1 => .box ((tower n).held.toBox (.zero 32) 0)

/-- The boxes of a tower are levels. -/
theorem lt_nesting_tower (n : Nat) : n < (tower n).nesting Level.all := by
  induction n with
  | zero => decide
  | succ n ih =>
    rw [tower, Value.nesting, Candidate.toBox, Box.nesting, Value.nesting_held]
    simp only [Level.all]
    omega

/-- A condition with a value in its table of constants. -/
def Condition.referring (v : Value) : Condition := .withConstants [v] (.const (.bool true))

theorem Condition.le_nesting_referring (w : Level → Nat) (v : Value) :
    v.nesting w ≤ (referring v).nesting w := by
  rw [referring, withConstants, nesting, Value.nestingAll, Value.nestingAll]
  omega

/-- A transaction with one output, which holds a value. -/
def SignedTx.paying (v : Value) : SignedTx := ⟨[], [], [v.held]⟩

theorem SignedTx.le_nesting_paying (w : Level → Nat) (v : Value) :
    v.nesting w ≤ (paying v).nesting w := by
  have hheld := deepest_le_iff.1 (Nat.le_refl ((paying v).nesting w)) (v.held.nesting w)
    (List.mem_singleton.2 rfl)
  rw [Value.nesting_held] at hheld
  exact (Nat.max_le.1 hheld).2

section

variable [Suite]

/-- Every encodable value can be held. -/
theorem Value.encodable_held {v : Value} (h : v.Encodable) : v.held.Encodable := by
  have hcondition : (Condition.new (.const (.bool true))).Encodable :=
    .parsed (.new _) ⟨by decide, by decide⟩ (List.forall_mem_nil _)
      (.intro (by decide) (.const (encodable_atom True.intro)))
  have hlength : (Condition.new (.const (.bool true))).toBytes.length ≤ Piece.maxSize := by decide
  have hregisters : v.held.registers.length ≤ maxRegisters := show 1 ≤ maxRegisters by decide
  exact .intro hcondition hlength (Nat.zero_le _) hregisters (List.forall_mem_singleton.2 h)

theorem encodable_tower (n : Nat) : (tower n).Encodable := by
  induction n with
  | zero => exact Value.encodable_atom True.intro
  | succ n ih =>
    exact .intro ⟨Nat.zero_le _, True.intro⟩ (.box (.intro (Value.encodable_held ih)))

theorem ofHex_tower (n : Nat) : Value.ofHex (Hex.encode (tower n).toBytes) = .ok (tower n) := by
  rw [Value.ofHex, Hex.decode_encode_eq]
  exact (encodable_tower n).reads.exactly

theorem Condition.ofBytes_referring {v : Value} (h : v.Encodable) :
    ofBytes (referring v).toBytes = .ok (referring v) := by
  refine Encodable.ofBytes_toBytes (.parsed (.withConstants _ _) ⟨?_, ?_⟩ ?_ ?_)
  · exact fun _ => show 1 ≤ Piece.maxSize by decide
  · exact fun hflag => absurd hflag (by decide)
  · exact List.forall_mem_singleton.2 h
  · exact .intro (by decide) (.const (Value.encodable_atom True.intro))

theorem SignedTx.ofBytes_paying {v : Value} (h : v.Encodable) :
    ofBytes (paying v).toBytes = .ok (paying v) := by
  have hreadable : v.held.Readable := by
    obtain ⟨_, -, ⟨-, h⟩, -⟩ :=
      Faithful.plain (fun _ => Candidate.faithful_decoder) ((Value.encodable_held h).reads [])
    exact h
  have houtputs : (paying v).outputs.length ≤ maxOutputs := show 1 ≤ maxOutputs by decide
  exact ofBytes_eq_ok_iff.2 ⟨⟨⟨Nat.zero_le _, List.forall_mem_nil _, Nat.zero_le _, houtputs,
    List.forall_mem_singleton.2 hreadable⟩, List.forall_mem_nil _⟩, spelled_toBytes _⟩

/-! ## Everything that is read -/

/-- **What is read nests to a depth that the input bounds.**  Apart from boxes, a value has at most
144 levels and a condition or a transaction at most 185.  Each box on the way down adds at most 74,
and takes at least sixty octets of the input. -/
theorem nesting_of_read :
    (∀ s v, Value.ofHex s = .ok v → ∃ b, Hex.decode s = some b ∧
      Bounded Value.maxLevels (v.nesting ·) b.length) ∧
    (∀ b c, Condition.ofBytes b = .ok c → Bounded Condition.maxLevels (c.nesting ·) b.length) ∧
    ∀ b tx, SignedTx.ofBytes b = .ok tx →
      Bounded Condition.maxLevels (tx.nesting ·) b.length := by
  refine ⟨fun s v h => ?_, fun b c h => Condition.bounded_ofBytes h, fun b tx h => ?_⟩
  · unfold Value.ofHex at h
    split at h
    · cases h
    · exact ⟨_, ‹_›, Value.takes_bounded_decoder.exactly h⟩
  · unfold SignedTx.ofBytes at h
    split at h
    · cases h
      exact SignedTx.takes_bounded.exactly ‹_›
    · cases h

end

/-- A tower of two boxes, a condition with it in its table, and a transaction that pays to it: each
is read, and nests within its bound. -/
theorem nesting_of_read_twoBoxes :
    Value.ofHex (Hex.encode (tower 2).toBytes) = .ok (tower 2) ∧
    (∃ b, Hex.decode (Hex.encode (tower 2).toBytes) = some b ∧
      Bounded Value.maxLevels ((tower 2).nesting ·) b.length) ∧
    Condition.ofBytes (Condition.referring (tower 2)).toBytes = .ok (.referring (tower 2)) ∧
    Bounded Condition.maxLevels ((Condition.referring (tower 2)).nesting ·)
      (Condition.referring (tower 2)).toBytes.length ∧
    SignedTx.ofBytes (SignedTx.paying (tower 2)).toBytes = .ok (.paying (tower 2)) ∧
    Bounded Condition.maxLevels ((SignedTx.paying (tower 2)).nesting ·)
      (SignedTx.paying (tower 2)).toBytes.length := by
  obtain ⟨hvalues, hconditions, htransactions⟩ := nesting_of_read
  have hvalue := ofHex_tower 2
  have hcondition := Condition.ofBytes_referring (encodable_tower 2)
  have htransaction := SignedTx.ofBytes_paying (encodable_tower 2)
  exact ⟨hvalue, hvalues _ _ hvalue, hcondition, hconditions _ _ hcondition, htransaction,
    htransactions _ _ htransaction⟩

/-- **There is no bound for all inputs**: towers are values, stand in the constants of conditions
and in the registers of outputs, and are as high as one likes. -/
theorem nesting_of_read_unbounded :
    (¬∃ bound, ∀ s v, Value.ofHex s = .ok v → v.nesting Level.all ≤ bound) ∧
    (¬∃ bound, ∀ b c, Condition.ofBytes b = .ok c → c.nesting Level.all ≤ bound) ∧
    ¬∃ bound, ∀ b tx, SignedTx.ofBytes b = .ok tx → tx.nesting Level.all ≤ bound := by
  refine ⟨fun ⟨bound, h⟩ => ?_, fun ⟨bound, h⟩ => ?_, fun ⟨bound, h⟩ => ?_⟩
  · exact absurd (h _ _ (ofHex_tower bound)) (Nat.not_le.2 (lt_nesting_tower bound))
  · have hle := h _ _ (Condition.ofBytes_referring (encodable_tower bound))
    have hinside := (Condition.le_nesting_referring Level.all (tower bound)).trans hle
    exact absurd hinside (Nat.not_le.2 (lt_nesting_tower bound))
  · have hle := h _ _ (SignedTx.ofBytes_paying (encodable_tower bound))
    have hinside := (SignedTx.le_nesting_paying Level.all (tower bound)).trans hle
    exact absurd hinside (Nat.not_le.2 (lt_nesting_tower bound))

end Covenant

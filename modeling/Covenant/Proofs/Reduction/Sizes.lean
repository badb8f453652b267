/-
  SIZES — how large the values are that an evaluation handles.

  The size of a value counts its nodes, the nodes of its propositions and the octets of its byte
  strings.  A box counts with all that can be read out of it: the octets of its condition, its
  tokens and its registers.  Records and numbers are single nodes.

  1. **`Value.size`** — and what is taken out of a value is no larger than the value.
  2. **Building** — collections and propositions are as large as their parts together.
  3. **Computing** — numbers, fields, identifiers and hashes have at most `flatSize`, whatever they
     were computed from.
-/
import Covenant.Proof.Listing
import Covenant.Proofs.Reduction.Scripts

namespace Covenant

/-! ## Sizes -/

/-- What an atom counts besides its own node. -/
def Atom.size : Atom → Nat
  | .sigmaProp p => p.size
  | _ => 0

/-- A token as a pair of its id and its amount: three nodes and the octets of the id. -/
def Token.size : Nat := 35

mutual

/-- Nodes of values and propositions, and octets of byte strings. -/
def Value.size : Value → Nat
  | .atom a => 1 + a.size
  | .box b => 1 + b.size
  | .bytes b => 1 + b.length
  | .seq _ vs => 1 + Value.sizeAll vs
  | .tuple vs => 1 + Value.sizeAll vs
  | .option _ none => 1
  | .option _ (some v) => 1 + v.size

/-- The sizes of some values together. -/
def Value.sizeAll : List Value → Nat
  | [] => 0
  | v :: vs => v.size + Value.sizeAll vs

/-- What can be read out of an output: its condition, its tokens and its registers. -/
def Candidate.size : Candidate → Nat
  | ⟨_, c, ts, rs, _⟩ => c.toBytes.length + Token.size * ts.length + Value.sizeAll rs

/-- What can be read out of a box. -/
def Box.size : Box → Nat
  | ⟨c, _, _⟩ => c.size

end

/-- The largest size of a value that is no larger than it has to be: a digest of 33 octets. -/
def flatSize : Nat := 34

namespace Proposition

theorem sizeAll_le_of_sublist {ps qs : List Proposition} (h : ps.Sublist qs) :
    sizeAll ps ≤ sizeAll qs := by
  induction h with
  | slnil => exact Nat.le_refl _
  | cons q _ ih =>
    rw [sizeAll_cons]
    omega
  | cons_cons p _ ih =>
    rw [sizeAll_cons, sizeAll_cons]
    omega

theorem sizeAll_unsettled_le (ps : List Proposition) : sizeAll (unsettled ps) ≤ sizeAll ps :=
  sizeAll_le_of_sublist List.filter_sublist

/-- A connective of what is left of some propositions. -/
theorem size_folded_le {ps qs : List Proposition} (h : sizeAll ps ≤ sizeAll qs) (b : Bool)
    (c : Connective) : (match ps with
      | [] => Proposition.trivial b
      | [p] => p
      | ps => .node c ps).size ≤ 1 + sizeAll qs := by
  split
  · exact Nat.le_add_right 1 _
  · rw [sizeAll_cons] at h
    omega
  · exact Nat.add_le_add_left h 1

theorem size_allOf_le (ps : List Proposition) : (allOf ps).size ≤ 1 + sizeAll ps := by
  unfold allOf
  split
  · exact Nat.le_add_right 1 _
  · exact size_folded_le (sizeAll_unsettled_le ps) true .all

theorem size_anyOf_le (ps : List Proposition) : (anyOf ps).size ≤ 1 + sizeAll ps := by
  unfold anyOf
  split
  · exact Nat.le_add_right 1 _
  · exact size_folded_le (sizeAll_unsettled_le ps) false .any

theorem size_atLeast_le (k : Nat) (ps : List Proposition) :
    (atLeast k ps).size ≤ 1 + sizeAll ps := by
  have hkept := sizeAll_unsettled_le ps
  unfold atLeast
  dsimp only
  split
  · exact Nat.le_add_right 1 _
  · split
    · exact Nat.le_add_right 1 _
    · split
      · exact Nat.le_trans (size_allOf_le _) (Nat.add_le_add_left hkept 1)
      · split
        · exact Nat.le_trans (size_anyOf_le _) (Nat.add_le_add_left hkept 1)
        · exact Nat.add_le_add_left hkept 1

end Proposition

namespace Value

theorem sizeAll_cons (v : Value) (vs : List Value) :
    sizeAll (v :: vs) = v.size + sizeAll vs := rfl

theorem size_bytes (b : Bytes) : (bytes b).size = 1 + b.length := rfl

theorem size_seq (t : ValueType) (vs : List Value) : (seq t vs).size = 1 + sizeAll vs := rfl

theorem size_pos (v : Value) : 0 < v.size := by
  cases v with
  | option t v =>
    cases v with
    | none => exact Nat.one_pos
    | some v => exact Nat.lt_add_right _ Nat.one_pos
  | _ => exact Nat.lt_add_right _ Nat.one_pos

theorem size_le_sizeAll {v : Value} {vs : List Value} (h : v ∈ vs) : v.size ≤ sizeAll vs := by
  induction vs with
  | nil => cases h
  | cons w vs ih =>
    rw [sizeAll_cons]
    rcases List.mem_cons.1 h with rfl | h
    · omega
    · have hrest := ih h
      omega

theorem sizeAll_le_of_sublist {vs ws : List Value} (h : vs.Sublist ws) :
    sizeAll vs ≤ sizeAll ws := by
  induction h with
  | slnil => exact Nat.le_refl _
  | cons w _ ih =>
    rw [sizeAll_cons]
    omega
  | cons_cons v _ ih =>
    rw [sizeAll_cons, sizeAll_cons]
    omega

theorem length_le_sizeAll (vs : List Value) : vs.length ≤ sizeAll vs := by
  induction vs with
  | nil => exact Nat.le_refl _
  | cons v vs ih =>
    have hpos := v.size_pos
    rw [sizeAll_cons, List.length_cons]
    omega

/-- Values below a bound are together below so many times the bound. -/
theorem sizeAll_le_mul {vs : List Value} {bound : Nat} (h : ∀ v ∈ vs, v.size ≤ bound) :
    sizeAll vs ≤ bound * vs.length := by
  induction vs with
  | nil => exact Nat.le_refl _
  | cons v vs ih =>
    obtain ⟨hv, hvs⟩ := List.forall_mem_cons.1 h
    have hrest := ih hvs
    rw [sizeAll_cons, List.length_cons, Nat.mul_succ]
    omega

theorem size_pair (v w : Value) : (pair v w).size = 1 + v.size + w.size := by
  show 1 + (v.size + (w.size + 0)) = 1 + v.size + w.size
  omega

end Value

/-! ## Collections and boxes -/

namespace Coll

theorem size_lt_of_mem {c : Coll} {v : Value} (h : v ∈ c.toList) : v.size < c.toValue.size := by
  cases c with
  | bytes b =>
    obtain ⟨x, hx, rfl⟩ := List.mem_map.1 h
    have hpos := List.length_pos_of_mem hx
    exact Nat.lt_add_of_pos_right hpos
  | values t vs =>
    have hle := Value.size_le_sizeAll (show v ∈ vs from h)
    rw [toValue, Value.size_seq]
    omega

theorem sizeAll_toList_lt (c : Coll) : Value.sizeAll c.toList < c.toValue.size := by
  cases c with
  | bytes b =>
    have hflat : ∀ v ∈ b.map ofOctet, v.size ≤ 1 :=
      List.forall_mem_map.2 fun x _ => Nat.le_refl 1
    have hsum := Value.sizeAll_le_mul hflat
    rw [List.length_map] at hsum
    rw [toList, toValue, Value.size_bytes]
    omega
  | values t vs =>
    rw [toList, toValue, Value.size_seq]
    omega

theorem size_slice_le (c : Coll) (i j : Nat) : (c.slice i j).toValue.size ≤ c.toValue.size := by
  cases c with
  | bytes b =>
    rw [slice, toValue, toValue, Value.size_bytes, Value.size_bytes, List.length_drop,
      List.length_take]
    omega
  | values t vs =>
    have hle := Value.sizeAll_le_of_sublist ((List.drop_sublist i _).trans (vs.take_sublist j))
    rw [slice, toValue, toValue, Value.size_seq, Value.size_seq]
    omega

/-- Flat or not, a collection is as large as its items together, and a node. -/
theorem size_ofList_le (t : ValueType) (vs : List Value) :
    (ofList t vs).toValue.size ≤ 1 + Value.sizeAll vs := by
  unfold ofList
  split
  · have hlength := Nat.le_trans (List.length_filterMap_le octet? vs) (Value.length_le_sizeAll vs)
    exact Nat.add_le_add_left hlength 1
  · exact Nat.le_refl _

theorem size_get?_lt {c : Coll} {i : Nat} : ∀ v ∈ c.get? i, v.size < c.toValue.size := by
  intro v hv
  rw [get?_eq] at hv
  exact size_lt_of_mem (List.mem_of_getElem? hv)

end Coll

theorem size_itemAt?_lt {c : Coll} {i : Int32} : ∀ v ∈ itemAt? c i, v.size < c.toValue.size := by
  intro v hv
  unfold itemAt? at hv
  split at hv
  · cases hv
  · exact Coll.size_get?_lt v hv

theorem Box.size_eq (b : Box) : b.size = b.candidate.condition.toBytes.length +
    Token.size * b.candidate.tokens.length + Value.sizeAll b.candidate.registers := by
  obtain ⟨⟨value, condition, tokens, registers, height⟩, tx, index⟩ := b
  rfl

theorem Box.size_register_le {b : Box} {i : UInt8} : ∀ v ∈ b.register? i, v.size ≤ b.size := by
  intro v hv
  unfold Box.register? at hv
  split at hv
  · cases hv
  · have hle := Value.size_le_sizeAll (List.mem_of_getElem? hv)
    rw [Box.size_eq]
    omega

/-! ## Numbers and fields -/

section

variable {v : Value}

theorem Value.Computed.size_eq (h : v.Computed) : v.size = 1 := by
  cases h <;> rfl

theorem size_le_flatSize (h : v.size = 1) : v.size ≤ flatSize := h ▸ (by decide : 1 ≤ flatSize)

theorem Value.Computed.size_le (h : v.Computed) : v.size ≤ flatSize := size_le_flatSize h.size_eq

theorem size_bytes_le {n : Nat} (b : Octets n) (h : n < flatSize) :
    (Value.bytes b.1).size ≤ flatSize := by
  rw [Value.size_bytes, b.2]
  omega

/-- What is read of a record is small. -/
theorem RecordField.Reading.size_le {x : Value} (h : RecordField.Reading x v) :
    v.size ≤ flatSize := by
  cases h with
  | computed h => exact h.size_le
  | octets b h => exact size_bytes_le b (Nat.lt_succ_of_le h)
  | stateRoot | minerKey | powOnetimeKey | nextMinerKey | absent => exact size_le_flatSize rfl
  | present => exact (by decide : 2 ≤ flatSize)

theorem sizeAll_tokens_le {ts : List Token} {vs : List Value}
    (h : ts.mapM Token.toValue = .ok vs) : Value.sizeAll vs ≤ Token.size * ts.length := by
  obtain ⟨hlength, hmem⟩ := Outcome.spec_of_mapM h
  rw [← hlength]
  refine Value.sizeAll_le_mul fun v hv => ?_
  obtain ⟨t, -, ht⟩ := hmem v hv
  obtain ⟨n, rfl⟩ := t.exists_of_toValue ht
  rw [Value.size_pair, Value.size_bytes, t.id.2]
  exact Nat.le_refl _

/-- A value of a known type is an option around what was there. -/
theorem size_readTyped_le {defect : ConditionDefect} {t : ValueType} {o : Option Value}
    {bound : Nat} (ho : ∀ w ∈ o, w.size ≤ bound) (hv : readTyped defect t o = .ok v) :
    v.size ≤ 1 + bound := by
  obtain ⟨-, rfl⟩ := readTyped_eq_ok.1 hv
  cases o with
  | none => exact Nat.le_add_right 1 bound
  | some w => exact Nat.add_le_add_left (ho w rfl) 1

end

end Covenant

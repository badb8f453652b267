/-
  EVERYWHERE — the values inside a value, and what is true of each of them.

  A value says what its parts are: a collection and an option name a type, bytes have a form of
  their own, and a tuple has as many types as items.  Nothing makes a value keep its word; the
  constructors take any parts.  So each rule is a property of one node, and a value follows it when
  all values inside it do, through collections, options, tuples and the registers of boxes.

  1. **`Value.within`** — the value and all values inside it; `v.Everywhere R` when all of them have
     the property `R`.
  2. **`Value.Typed`** — parts have the type that their value names, and bytes are flat.
  3. **`Value.Arity`** — a tuple has so many items.  With at least two, and with sized types where a
     value names one, the type of the value is sized as well (`Value.sized_type`).
  4. **`Value.itemized`** — the value with every byte string in it written out item by item.  Values
     that follow the rule of types have one form only (`Value.eq_of_itemized`).
-/
import Covenant.Proofs.Codec.Parts
import Covenant.Proofs.Reduction.Sizes
import Covenant.Proofs.Script.Equality

namespace Covenant

/-! ## Listing values -/

mutual

/-- The value and all values inside it, each before its parts. -/
def Value.within : Value → List Value
  | .atom a => [.atom a]
  | .box b => .box b :: b.within
  | .bytes b => [.bytes b]
  | .seq t vs => .seq t vs :: Value.withinAll vs
  | .tuple vs => .tuple vs :: Value.withinAll vs
  | .option t none => [.option t none]
  | .option t (some v) => .option t (some v) :: v.within

/-- Some values and all values inside them. -/
def Value.withinAll : List Value → List Value
  | [] => []
  | v :: vs => v.within ++ Value.withinAll vs

/-- The values in the registers of an output. -/
def Candidate.within : Candidate → List Value
  | ⟨_, _, _, registers, _⟩ => Value.withinAll registers

/-- The values in the registers of a box. -/
def Box.within : Box → List Value
  | ⟨candidate, _, _⟩ => candidate.within

end

namespace Value

variable {R S : Value → Prop}

/-- The value and all values inside it have the property. -/
def Everywhere (R : Value → Prop) (v : Value) : Prop := ∀ w ∈ v.within, R w

instance (v : Value) [DecidablePred R] : Decidable (v.Everywhere R) :=
  inferInstanceAs (Decidable (∀ w ∈ v.within, R w))

theorem forall_withinAll {vs : List Value} :
    (∀ w ∈ withinAll vs, R w) ↔ ∀ v ∈ vs, v.Everywhere R := by
  induction vs with
  | nil => exact ⟨fun _ => List.forall_mem_nil _, fun _ => List.forall_mem_nil _⟩
  | cons v vs ih =>
    show (∀ w ∈ v.within ++ withinAll vs, R w) ↔ _
    rw [List.forall_mem_append, ih, List.forall_mem_cons, Everywhere]

@[simp] theorem everywhere_atom {a : Atom} : (atom a).Everywhere R ↔ R (atom a) :=
  List.forall_mem_singleton

@[simp] theorem everywhere_box {b : Box} : (box b).Everywhere R ↔
    R (box b) ∧ ∀ v ∈ b.candidate.registers, v.Everywhere R := by
  obtain ⟨⟨_, _, _, registers, _⟩, _, _⟩ := b
  show (∀ w ∈ _ :: withinAll registers, R w) ↔ _
  rw [List.forall_mem_cons, forall_withinAll]

@[simp] theorem everywhere_bytes {b : Bytes} : (bytes b).Everywhere R ↔ R (bytes b) :=
  List.forall_mem_singleton

@[simp] theorem everywhere_seq {t : ValueType} {vs : List Value} :
    (seq t vs).Everywhere R ↔ R (seq t vs) ∧ ∀ v ∈ vs, v.Everywhere R := by
  show (∀ w ∈ seq t vs :: withinAll vs, R w) ↔ _
  rw [List.forall_mem_cons, forall_withinAll]

@[simp] theorem everywhere_tuple {vs : List Value} :
    (tuple vs).Everywhere R ↔ R (tuple vs) ∧ ∀ v ∈ vs, v.Everywhere R := by
  show (∀ w ∈ tuple vs :: withinAll vs, R w) ↔ _
  rw [List.forall_mem_cons, forall_withinAll]

@[simp] theorem everywhere_option {t : ValueType} {o : Option Value} :
    (option t o).Everywhere R ↔ R (option t o) ∧ ∀ v ∈ o, v.Everywhere R := by
  cases o with
  | none =>
    show (∀ w ∈ [option t none], R w) ↔ _
    simp
  | some v =>
    show (∀ w ∈ option t (some v) :: v.within, R w) ↔ _
    simp [Everywhere]

@[simp] theorem everywhere_pair {v w : Value} :
    (pair v w).Everywhere R ↔ R (pair v w) ∧ v.Everywhere R ∧ w.Everywhere R := by
  simp [pair]

/-- A value is the first of those inside it. -/
theorem Everywhere.self {v : Value} (h : v.Everywhere R) : R v := by
  cases v with
  | option t o => exact (everywhere_option.1 h).1
  | atom | bytes => simpa using h
  | box | seq | tuple => exact (by simpa using h : _ ∧ _).1

theorem Everywhere.imp {v : Value} (h : v.Everywhere R) (himp : ∀ w, R w → S w) :
    v.Everywhere S :=
  fun w hw => himp w (h w hw)

theorem Everywhere.and {v : Value} (h : v.Everywhere R) (h' : v.Everywhere S) :
    v.Everywhere fun w => R w ∧ S w :=
  fun w hw => ⟨h w hw, h' w hw⟩

end Value

/-- What a register of a box holds is inside the box. -/
theorem Box.everywhere_register {R : Value → Prop} {b : Box} (h : (Value.box b).Everywhere R)
    {number : UInt8} : ∀ v ∈ b.register? number, v.Everywhere R := by
  intro v hv
  rw [Option.mem_def, register?] at hv
  split at hv
  · cases hv
  · exact (Value.everywhere_box.1 h).2 v (List.mem_of_getElem? hv)

/-! ## The rule of types -/

namespace Value

/-- The parts of the value have the type that it names, and bytes are kept flat. -/
def Typed : Value → Prop
  | .seq t vs => t ≠ .byte ∧ ∀ v ∈ vs, v.type = t
  | .option t o => ∀ v ∈ o, v.type = t
  | _ => True

instance : DecidablePred Typed
  | .seq t vs => inferInstanceAs (Decidable (t ≠ .byte ∧ ∀ v ∈ vs, v.type = t))
  | .option t o => inferInstanceAs (Decidable (∀ v ∈ o, v.type = t))
  | .atom _ | .box _ | .bytes _ | .tuple _ => inferInstanceAs (Decidable True)

/-- The value and all values inside it follow the rule of types. -/
abbrev WellTyped (v : Value) : Prop := v.Everywhere Typed

end Value

namespace Coll

theorem map_octet?_ofOctet (b : Bytes) : (b.map ofOctet).filterMap octet? = b := by
  induction b with
  | nil => rfl
  | cons x b ih => simp [ofOctet, octet?, ih]

/-- Bytes are told apart by their octets. -/
theorem map_ofOctet_inj {b c : Bytes} : b.map ofOctet = c.map ofOctet ↔ b = c := by
  refine ⟨fun h => ?_, fun h => h ▸ rfl⟩
  rw [← map_octet?_ofOctet b, h, map_octet?_ofOctet]

/-- Values of type byte are bytes. -/
theorem exists_octets {vs : List Value} (h : ∀ v ∈ vs, v.type = .byte) :
    ∃ b : Bytes, vs = b.map ofOctet := by
  induction vs with
  | nil => exact ⟨[], rfl⟩
  | cons v vs ih =>
    obtain ⟨hv, hvs⟩ := List.forall_mem_cons.1 h
    obtain ⟨b, rfl⟩ := ih hvs
    cases v with
    | atom a =>
      cases a <;> cases hv
      rename_i x
      exact ⟨x.toUInt8 :: b, by simp [ofOctet]⟩
    | _ => cases hv

/-- **Values of one type become a collection of exactly these items**, flat or not. -/
theorem toList_ofList {t : ValueType} {vs : List Value} (h : ∀ v ∈ vs, v.type = t) :
    (ofList t vs).toList = vs := by
  unfold ofList
  split
  · rename_i hbyte
    obtain ⟨b, rfl⟩ := exists_octets (hbyte ▸ h)
    rw [map_octet?_ofOctet]
    rfl
  · rfl

@[simp] theorem itemType_ofList (t : ValueType) (vs : List Value) :
    (ofList t vs).itemType = t := by
  unfold ofList
  split
  · exact Eq.symm ‹_›
  · rfl

/-- The items of a collection have its item type. -/
theorem type_of_mem {c : Coll} (h : c.toValue.WellTyped) : ∀ v ∈ c.toList, v.type = c.itemType := by
  cases c with
  | bytes b => exact List.forall_mem_map.2 fun x _ => rfl
  | values t vs => exact h.self.2

end Coll

/-! ## The number of items of a tuple -/

namespace Value

/-- A tuple has at least so many items, and at most those that its type has room for. -/
def Arity (least : Nat) : Value → Prop
  | .tuple vs => least ≤ vs.length ∧ vs.length ≤ maxTupleArity
  | _ => True

instance (least : Nat) : DecidablePred (Arity least)
  | .tuple vs => inferInstanceAs (Decidable (least ≤ vs.length ∧ vs.length ≤ maxTupleArity))
  | .atom _ | .box _ | .bytes _ | .seq _ _ | .option _ _ => inferInstanceAs (Decidable True)

/-- The type that the value names for its parts is sized. -/
def NamesSized : Value → Prop
  | .seq t _ => t.Sized
  | .option t _ => t.Sized
  | _ => True

mutual

/-- Where all tuples have two items or more, and all types named are sized, the type of the value
is sized. -/
theorem sized_type : (v : Value) → v.Everywhere (fun w => w.Arity 2 ∧ w.NamesSized) → v.type.Sized
  | .atom _, _ => True.intro
  | .box _, _ => True.intro
  | .bytes _, _ => True.intro
  | .seq _ _, h => h.self.2
  | .option _ _, h => h.self.2
  | .tuple vs, h => by
    refine ⟨?_, sized_typeAll vs (everywhere_tuple.1 h).2⟩
    rw [typeAll_eq_map, List.length_map]
    exact h.self.1

theorem sized_typeAll : (vs : List Value) →
    (∀ v ∈ vs, v.Everywhere fun w => w.Arity 2 ∧ w.NamesSized) → ValueType.SizedAll (typeAll vs)
  | [], _ => True.intro
  | v :: vs, h => by
    obtain ⟨hv, hvs⟩ := List.forall_mem_cons.1 h
    exact ⟨sized_type v hv, sized_typeAll vs hvs⟩

end

end Value

/-! ## One form for each collection -/

mutual

/-- The value with every byte string in it written out item by item. -/
def Value.itemized : Value → Value
  | .atom a => .atom a
  | .box b => .box b.itemized
  | .bytes b => .seq .byte (b.map Coll.ofOctet)
  | .seq t vs => .seq t (Value.itemizedAll vs)
  | .tuple vs => .tuple (Value.itemizedAll vs)
  | .option t none => .option t none
  | .option t (some v) => .option t (some v.itemized)

/-- Some values, written out item by item. -/
def Value.itemizedAll : List Value → List Value
  | [] => []
  | v :: vs => v.itemized :: Value.itemizedAll vs

/-- The output with its registers written out item by item. -/
def Candidate.itemized : Candidate → Candidate
  | ⟨value, condition, tokens, registers, height⟩ =>
    ⟨value, condition, tokens, Value.itemizedAll registers, height⟩

/-- The box with its registers written out item by item. -/
def Box.itemized : Box → Box
  | ⟨candidate, tx, index⟩ => ⟨candidate.itemized, tx, index⟩

end

section

open Value

mutual

/-- **Values that follow the rule of types have one form**: those that are the same item by item are
the same. -/
theorem Value.eq_of_itemized : {v w : Value} → v.WellTyped → w.WellTyped →
    v.itemized = w.itemized → v = w
  | .atom a, w, _, _, h => by
    cases w with
    | atom a' => simpa [itemized] using h
    | option t o => cases o <;> simp [itemized] at h
    | _ => simp [itemized] at h
  | .box b, w, hv, hw, h => by
    cases w with
    | box b' =>
      rw [Box.eq_of_itemized (everywhere_box.1 hv).2 (everywhere_box.1 hw).2 (box.inj h)]
    | option t o => cases o <;> simp [itemized] at h
    | _ => simp [itemized] at h
  | .bytes b, w, _, hw, h => by
    -- octets and a sequence of bytes have the same items, but only octets are well-typed
    cases w with
    | bytes b' => rw [Coll.map_ofOctet_inj.1 (seq.inj h).2]
    | seq t ws => exact absurd (seq.inj h).1.symm hw.self.1
    | option t o => cases o <;> simp [itemized] at h
    | _ => simp [itemized] at h
  | .seq t vs, w, hv, hw, h => by
    cases w with
    | bytes b => exact absurd (seq.inj h).1 hv.self.1
    | seq t' ws =>
      obtain ⟨rfl, hitems⟩ := seq.inj h
      -- both are sequences of one type, so their items are compared in turn
      rw [Value.eq_of_itemizedAll (everywhere_seq.1 hv).2 (everywhere_seq.1 hw).2 hitems]
    | option t' o => cases o <;> simp [itemized] at h
    | _ => simp [itemized] at h
  | .tuple vs, w, hv, hw, h => by
    cases w with
    | tuple ws =>
      rw [Value.eq_of_itemizedAll (everywhere_tuple.1 hv).2 (everywhere_tuple.1 hw).2 (tuple.inj h)]
    | option t o => cases o <;> simp [itemized] at h
    | _ => simp [itemized] at h
  | .option t none, w, _, _, h => by
    cases w with
    | option t' o => cases o <;> simp_all [itemized]
    | _ => simp [itemized] at h
  | .option t (some v), w, hv, hw, h => by
    cases w with
    | option t' o =>
      cases o with
      | none => simp [itemized] at h
      | some w =>
        obtain ⟨rfl, hcontent⟩ := option.inj h
        rw [Value.eq_of_itemized ((everywhere_option.1 hv).2 v rfl) ((everywhere_option.1 hw).2 w rfl)
          (Option.some.inj hcontent)]
    | _ => simp [itemized] at h

theorem Value.eq_of_itemizedAll : {vs ws : List Value} → (∀ v ∈ vs, v.WellTyped) →
    (∀ w ∈ ws, w.WellTyped) → Value.itemizedAll vs = Value.itemizedAll ws → vs = ws
  | [], [], _, _, _ => rfl
  | [], _ :: _, _, _, h | _ :: _, [], _, _, h => by simp [itemizedAll] at h
  | v :: vs, w :: ws, hv, hw, h => by
    obtain ⟨hv, hvs⟩ := List.forall_mem_cons.1 hv
    obtain ⟨hw, hws⟩ := List.forall_mem_cons.1 hw
    obtain ⟨hfirst, hrest⟩ := List.cons.inj h
    rw [Value.eq_of_itemized hv hw hfirst, Value.eq_of_itemizedAll hvs hws hrest]

theorem Candidate.eq_of_itemized : {c d : Candidate} → (∀ v ∈ c.registers, v.WellTyped) →
    (∀ w ∈ d.registers, w.WellTyped) → c.itemized = d.itemized → c = d
  | ⟨_, _, _, _, _⟩, ⟨_, _, _, _, _⟩, hc, hd, h => by
    obtain ⟨rfl, rfl, rfl, hregisters, rfl⟩ := Candidate.mk.inj h
    obtain rfl := Value.eq_of_itemizedAll hc hd hregisters
    rfl

theorem Box.eq_of_itemized : {b b' : Box} → (∀ v ∈ b.candidate.registers, v.WellTyped) →
    (∀ w ∈ b'.candidate.registers, w.WellTyped) → b.itemized = b'.itemized → b = b'
  | ⟨_, _, _⟩, ⟨_, _, _⟩, hb, hb', h => by
    obtain ⟨hcandidate, rfl, rfl⟩ := Box.mk.inj h
    obtain rfl := Candidate.eq_of_itemized hb hb' hcandidate
    rfl

end

end

end Covenant

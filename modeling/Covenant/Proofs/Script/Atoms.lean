/-
  ATOMS — what stands at the bottom of values, expressions, conditions and boxes.

  Whatever these hold of each other, at the bottom there are atoms: numbers, group elements,
  propositions, records.  `Value.atoms` and its companions list them from left to right, through
  options, collections, tuples, the registers of boxes, and the constants of expressions.  The
  condition of a box is left out: an evaluation that comes across the box sees its octets and
  nothing else of it.

  A property of atoms becomes one of values: `v.Has P` when all atoms of `v` have it.  What a value
  is taken apart into has the property again, which is all that the operations of the language do
  with values that they do not compute.
-/
import Covenant.Script.Condition

namespace Covenant

/-! ## Listing atoms -/

mutual

/-- The atoms of a value from left to right. -/
def Value.atoms : Value → List Atom
  | .atom a => [a]
  | .box b => b.atoms
  | .bytes _ => []
  | .seq _ vs => Value.atomsAll vs
  | .tuple vs => Value.atomsAll vs
  | .option _ none => []
  | .option _ (some v) => v.atoms

/-- The atoms of some values. -/
def Value.atomsAll : List Value → List Atom
  | [] => []
  | v :: vs => v.atoms ++ Value.atomsAll vs

/-- The atoms of the registers of an output. -/
def Candidate.atoms : Candidate → List Atom
  | ⟨_, _, _, registers, _⟩ => Value.atomsAll registers

/-- The atoms of the registers of a box. -/
def Box.atoms : Box → List Atom
  | ⟨candidate, _, _⟩ => candidate.atoms

end

mutual

/-- The atoms of an expression's constants. -/
def Expr.atoms : Expr → List Atom
  | .const v => v.atoms
  | .placeholder _ | .use _ | .context _ | .getVar _ _ | .deserialize _ _ => []
  | .block ds e => Expr.atomsDefs ds ++ e.atoms
  | .variadic _ es => Expr.atomsAll es
  | .collOf _ es => Expr.atomsAll es
  | .unary _ e => e.atoms
  | .register e _ _ => e.atoms
  | .record _ e => e.atoms
  | .binary _ a b => a.atoms ++ b.atoms
  | .ternary _ a b c => a.atoms ++ b.atoms ++ c.atoms
  | .byIndex c i none => c.atoms ++ i.atoms
  | .byIndex c i (some d) => c.atoms ++ i.atoms ++ d.atoms
  | .loop _ c _ b => c.atoms ++ b.atoms
  | .fold c z _ b => c.atoms ++ z.atoms ++ b.atoms
  | .selectField e _ => e.atoms
  | .dhTuple g h u v => g.atoms ++ h.atoms ++ u.atoms ++ v.atoms

/-- The atoms of some expressions. -/
def Expr.atomsAll : List Expr → List Atom
  | [] => []
  | e :: es => e.atoms ++ Expr.atomsAll es

/-- The atoms of the right-hand sides of some definitions. -/
def Expr.atomsDefs : List (UInt32 × Expr) → List Atom
  | [] => []
  | (_, e) :: ds => e.atoms ++ Expr.atomsDefs ds

end

/-- The atoms of a condition: those of its constants and of its expression. -/
def Condition.atoms : Condition → List Atom
  | .parsed _ cs root => Value.atomsAll cs ++ root.atoms
  | .unparsed _ _ => []

variable {P : Atom → Prop}

/-! ## Values all of whose atoms have a property -/

namespace Value

/-- All atoms of the value have the property. -/
def Has (P : Atom → Prop) (v : Value) : Prop := ∀ a ∈ v.atoms, P a

instance (v : Value) [DecidablePred P] : Decidable (v.Has P) :=
  inferInstanceAs (Decidable (∀ a ∈ v.atoms, P a))

theorem mem_atomsAll {vs : List Value} {a : Atom} : a ∈ atomsAll vs ↔ ∃ v ∈ vs, a ∈ v.atoms := by
  induction vs with
  | nil =>
    show a ∈ [] ↔ _
    simp
  | cons v vs ih =>
    show a ∈ v.atoms ++ atomsAll vs ↔ _
    simp [ih]

theorem forall_atomsAll {vs : List Value} : (∀ a ∈ atomsAll vs, P a) ↔ ∀ v ∈ vs, v.Has P := by
  simp only [mem_atomsAll, Has]
  grind

@[simp] theorem has_atom {a : Atom} : (atom a).Has P ↔ P a := List.forall_mem_singleton

@[simp] theorem has_box {b : Box} : (box b).Has P ↔ ∀ v ∈ b.candidate.registers, v.Has P := by
  obtain ⟨⟨_, _, _, _, _⟩, _, _⟩ := b
  exact forall_atomsAll

@[simp] theorem has_bytes {b : Bytes} : (bytes b).Has P := List.forall_mem_nil _

@[simp] theorem has_seq {t : ValueType} {vs : List Value} :
    (seq t vs).Has P ↔ ∀ v ∈ vs, v.Has P := forall_atomsAll

@[simp] theorem has_tuple {vs : List Value} : (tuple vs).Has P ↔ ∀ v ∈ vs, v.Has P :=
  forall_atomsAll

@[simp] theorem has_option {t : ValueType} {o : Option Value} :
    (option t o).Has P ↔ ∀ v ∈ o, v.Has P := by
  cases o with
  | none =>
    show (∀ a ∈ [], P a) ↔ _
    simp
  | some v =>
    show v.Has P ↔ _
    simp

@[simp] theorem has_pair {v w : Value} : (pair v w).Has P ↔ v.Has P ∧ w.Has P := by
  simp [pair]

end Value

/-! ## Expressions, conditions and boxes -/

/-- All atoms of the expression have the property. -/
def Expr.Has (P : Atom → Prop) (e : Expr) : Prop := ∀ a ∈ e.atoms, P a

instance (e : Expr) [DecidablePred P] : Decidable (e.Has P) :=
  inferInstanceAs (Decidable (∀ a ∈ e.atoms, P a))

theorem Expr.forall_atomsAll {es : List Expr} :
    (∀ a ∈ atomsAll es, P a) ↔ ∀ e ∈ es, e.Has P := by
  induction es with
  | nil => exact ⟨fun _ => List.forall_mem_nil _, fun _ => List.forall_mem_nil _⟩
  | cons e es ih =>
    show (∀ a ∈ e.atoms ++ atomsAll es, P a) ↔ _
    rw [List.forall_mem_append, ih, List.forall_mem_cons, Has]

theorem Expr.forall_atomsDefs {ds : List (UInt32 × Expr)} :
    (∀ a ∈ atomsDefs ds, P a) ↔ ∀ d ∈ ds, d.2.Has P := by
  induction ds with
  | nil => exact ⟨fun _ => List.forall_mem_nil _, fun _ => List.forall_mem_nil _⟩
  | cons d ds ih =>
    show (∀ a ∈ d.2.atoms ++ atomsDefs ds, P a) ↔ _
    rw [List.forall_mem_append, ih, List.forall_mem_cons, Has]

/-- All atoms of the condition have the property. -/
def Condition.Has (P : Atom → Prop) (c : Condition) : Prop := ∀ a ∈ c.atoms, P a

instance (c : Condition) [DecidablePred P] : Decidable (c.Has P) :=
  inferInstanceAs (Decidable (∀ a ∈ c.atoms, P a))

/-- All atoms of the output's condition and of its registers have the property. -/
structure Candidate.Has (P : Atom → Prop) (c : Candidate) : Prop where
  condition : c.condition.Has P
  registers : ∀ v ∈ c.registers, v.Has P

/-- All atoms of the box's condition and of its registers have the property. -/
def Box.Has (P : Atom → Prop) (b : Box) : Prop := b.candidate.Has P

/-- The constants and the expression of a condition that could be read. -/
theorem Condition.Has.parsed {c : Condition} (h : c.Has P) :
    (∀ v ∈ c.constants, v.Has P) ∧ ∀ e ∈ c.root?, e.Has P := by
  cases c with
  | unparsed => simp [constants, root?]
  | parsed header cs root =>
    rw [Has, atoms, List.forall_mem_append, Value.forall_atomsAll] at h
    simpa [constants, root?, Expr.Has] using h

/-- What a register of a box holds. -/
theorem Box.has_register {b : Box} (h : (Value.box b).Has P) {number : UInt8} :
    ∀ v ∈ b.register? number, v.Has P := by
  intro v hv
  rw [Option.mem_def, register?] at hv
  split at hv
  · cases hv
  · exact Value.has_box.1 h v (List.mem_of_getElem? hv)

/-! ## Collections -/

namespace Coll

/-- All atoms of the collection's items have the property. -/
def Has (P : Atom → Prop) (c : Coll) : Prop := ∀ v ∈ c.toList, v.Has P

/-- What is said of a collection is said of its items, bytes included. -/
theorem has_of_toValue {c : Coll} (hbyte : ∀ x, P (.byte x)) (h : c.toValue.Has P) : c.Has P := by
  cases c with
  | bytes b =>
    intro w hw
    obtain ⟨x, -, rfl⟩ := List.mem_map.1 hw
    exact Value.has_atom.2 (hbyte _)
  | values t vs => exact Value.has_seq.1 h

theorem has_slice {c : Coll} (h : c.Has P) (i j : Nat) : (c.slice i j).toValue.Has P := by
  cases c with
  | bytes b => exact Value.has_bytes
  | values t vs =>
    exact Value.has_seq.2 fun v hv => h v (List.mem_of_mem_take (List.mem_of_mem_drop hv))

theorem has_get? {c : Coll} (h : c.Has P) {i : Nat} : ∀ v ∈ c.get? i, v.Has P := by
  intro v hv
  rw [get?_eq] at hv
  exact h v (List.mem_of_getElem? hv)

/-- Flattening bytes keeps what is said of items. -/
theorem has_ofList {t : ValueType} {vs : List Value} (h : ∀ v ∈ vs, v.Has P) :
    (ofList t vs).toValue.Has P := by
  unfold ofList
  split
  · exact Value.has_bytes
  · exact Value.has_seq.2 h

end Coll

end Covenant

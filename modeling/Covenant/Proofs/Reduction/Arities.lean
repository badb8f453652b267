/-
  ARITIES — how many items the tuples have that an evaluation comes across.

  The type of a tuple has between two and `maxTupleArity` items.  The reader of types enforces both
  bounds, and so everything that is read keeps them: constants, registers, variables, and the
  constants of scripts.  Tokens and the arguments of folds are pairs.  That leaves the expression
  that lists the items of a tuple.  It is read with any number of items, and the evaluator compares
  this number with the upper bound only.

  1. **`Discipline.arity`** — a lower bound of at most two is a discipline, where expressions build
     no shorter tuples.
  2. **`Condition.arity_of_noted`** — so no tuple is ever too long; and none is too short, with types
     to match, as long as no expression lists fewer than two items.
  3. **`Condition.arity_of_noted_short`** — which some expressions do.
-/
import Covenant.Proofs.Reduction.Growth
import Covenant.Proofs.Reduction.Noted
import Covenant.Proofs.Script.Formed

namespace Covenant

/-! ## The rule of tuples -/

/-- What has at least so many items has at least as many as any lower number. -/
theorem Value.Arity.mono {least least' : Nat} (hle : least' ≤ least) {v : Value}
    (h : v.Arity least) : v.Arity least' := by
  cases v with
  | tuple vs => exact ⟨Nat.le_trans hle h.1, h.2⟩
  | _ => exact trivial

namespace Discipline

/-- Tuples have at least so many items; a pair has enough. -/
def arity (least : Nat) (hle : least ≤ 2) : Discipline where
  rule := Value.Arity least
  names _ := True
  builds n := least ≤ n
  builtIn _ _ := trivial
  atom _ := trivial
  box _ := trivial
  bytes _ := trivial
  seq _ _ _ _ _ := trivial
  subset _ _ _ _ _ := trivial
  option _ _ _ _ := trivial
  pair _ _ := ⟨hle, show 2 ≤ maxTupleArity by decide⟩
  tuple _ hleast hmost := ⟨hleast, hmost⟩

theorem sized_builtIn : ∀ t ∈ ValueType.builtIn, t.Sized := by
  simp [ValueType.builtIn, Token.valueType, ValueType.Sized, ValueType.SizedAll, maxTupleArity]

/-- Tuples have at least two items, and types that values name are sized. -/
def sized : Discipline where
  rule v := v.Arity 2 ∧ v.NamesSized
  names := ValueType.Sized
  builds n := 2 ≤ n
  builtIn := sized_builtIn
  atom _ := ⟨trivial, trivial⟩
  box _ := ⟨trivial, trivial⟩
  bytes _ := ⟨trivial, trivial⟩
  seq _ _ ht _ _ := ⟨trivial, ht⟩
  subset _ _ _ hvs _ := hvs
  option _ _ ht _ := ⟨trivial, ht⟩
  pair _ _ := ⟨⟨Nat.le_refl 2, show 2 ≤ maxTupleArity by decide⟩, trivial⟩
  tuple _ hleast hmost := ⟨⟨hleast, hmost⟩, trivial⟩

end Discipline

/-! ## Reductions -/

namespace Condition

variable [Suite] {c : Condition} {ctx : Context}

/-- Where the condition or a script that it may read builds a tuple, at least so many items are
listed. -/
structure Builds (least : Nat) (c : Condition) (ctx : Context) : Prop where
  expression : ∀ e ∈ c.root?, ∀ es, .variadic .tuple es ∈ e.nodes → least ≤ es.length
  scripts : ∀ s, c.Reads ctx s → ∀ es, .variadic .tuple es ∈ s.nodes → least ≤ es.length

/-- The types that the condition and the values embedded around it name are sized. -/
structure NamesSized (c : Condition) (ctx : Context) : Prop where
  embedded : c.Embeds (·.Everywhere Value.NamesSized) ctx
  expression : ∀ e ∈ c.root?, ∀ n ∈ e.nodes, ∀ t ∈ n.types, t.Sized

/-- Any number of items is at least zero. -/
theorem builds_zero : c.Builds 0 ctx := ⟨fun _ _ _ _ => Nat.zero_le _, fun _ _ _ _ => Nat.zero_le _⟩

theorem Builds.starts_arity {least : Nat} (hle : least ≤ 2) (hbuilds : c.Builds least ctx)
    (h : c.Embeds (·.Everywhere (Value.Arity least)) ctx) :
    c.Starts (.arity least hle) ctx where
  embedded := h
  expression e he _ hn :=
    ⟨fun _ _ => trivial, fun es heq => hbuilds.expression e he es (heq ▸ hn)⟩
  scripts s hs n hn :=
    { types := fun _ _ => trivial
      tuple := fun es heq => hbuilds.scripts s hs es (heq ▸ hn)
      values := fun v hv => ((hs.formed n hn).values v hv).imp fun _ hw => hw.arity.mono hle }

theorem Builds.starts_sized (hbuilds : c.Builds 2 ctx) (hnames : c.NamesSized ctx)
    (h : c.Embeds (·.Everywhere (Value.Arity 2)) ctx) : c.Starts .sized ctx where
  embedded := h.and hnames.embedded fun _ hv hv' => hv.and hv'
  expression e he n hn :=
    ⟨hnames.expression e he n hn, fun es heq => hbuilds.expression e he es (heq ▸ hn)⟩
  scripts s hs n hn :=
    { types := (hs.formed n hn).types
      tuple := fun es heq => hbuilds.scripts s hs es (heq ▸ hn)
      values := fun v hv => ((hs.formed n hn).values v hv).imp fun _ hw =>
        ⟨hw.arity, hw.namesSized⟩ }

/-- **How many items tuples have.**  When all tuples embedded in a condition and in what it sees have
between two and `maxTupleArity` items, no tuple in any value that its reduction comes across has
more.  Where at least two items are listed for each tuple that is built, none has fewer; and if the
types that are named are sized, too, then so is the type of the value. -/
theorem arity_of_noted (h : c.Embeds (·.Everywhere (Value.Arity 2)) ctx) {limit : UInt64}
    {v : Value} (hv : c.Notes ctx limit v) :
    v.Everywhere (Value.Arity 0) ∧
    (c.Builds 2 ctx → v.Everywhere (Value.Arity 2)) ∧
    (c.Builds 2 ctx → c.NamesSized ctx → v.type.Sized) := by
  refine ⟨?_, fun hbuilds => ?_, fun hbuilds hnames => ?_⟩
  · have hlow : c.Embeds (·.Everywhere (Value.Arity 0)) ctx :=
      h.imp fun _ hv => hv.imp fun _ hw => hw.mono (Nat.zero_le 2)
    exact follows_of_noted (builds_zero.starts_arity (Nat.zero_le 2) hlow) hv
  · exact follows_of_noted (hbuilds.starts_arity (Nat.le_refl 2) h) hv
  · exact v.sized_type (follows_of_noted (hbuilds.starts_sized hnames h) hv)

end Condition

/-- A pair of a variable's value with itself is within both bounds. -/
theorem Condition.arity_of_noted_doubling :
    (doubling 1).Embeds (·.Everywhere (Value.Arity 2)) .blank ∧
    (doubling 1).Notes .blank 60 (doubled 1) ∧ (doubling 1).Builds 2 .blank ∧
    (doubling 1).NamesSized .blank ∧ (doubled 1).Everywhere (Value.Arity 2) ∧
    (doubled 1).type.Sized := by
  have hconst {v : Value} (hv : .const v ∈ (doublings 1).nodes) : v = .bool true := by
    simpa [doublings, twice, Expr.nodes, Expr.nodesDefs, Expr.nodesAll] using hv
  have hembeds {R : Value → Prop} (htrue : R (.bool true)) :
      (doubling 1).Embeds (·.Everywhere R) .blank := by
    refine ⟨List.forall_mem_nil _, ?_, List.forall_mem_nil _, List.forall_mem_nil _⟩
    rintro _ ⟨⟩ v hv
    exact hconst hv ▸ Value.everywhere_atom.2 htrue
  -- the only tuples it builds are pairs, and no script variable is run
  have hbuilds : (doubling 1).Builds 2 .blank := by
    refine ⟨?_, ?_⟩
    · rintro _ ⟨⟩ es hes
      obtain rfl : es = [.use 0, .use 0] := by
        simpa [doublings, twice, Expr.nodes, Expr.nodesDefs, Expr.nodesAll] using hes
      decide
    · rintro s ⟨_, -, i, _, -, b, hvariable, -⟩
      cases hvariable
  have hnames : (doubling 1).NamesSized .blank := by
    have hnone : ∀ n ∈ (doublings 1).nodes, n.types = [] := by
      simp [doublings, twice, Expr.nodes, Expr.nodesDefs, Expr.nodesAll, Expr.types]
    refine ⟨hembeds trivial, ?_⟩
    rintro _ ⟨⟩ n hn t ht
    rw [hnone n hn] at ht
    cases ht
  have hnoted : (doubling 1).Notes .blank 60 (doubled 1) := by decide +kernel
  obtain ⟨-, harity, hsized⟩ := arity_of_noted (hembeds trivial) hnoted
  exact ⟨hembeds trivial, hnoted, hbuilds, hnames, harity hbuilds, hsized hbuilds hnames⟩

/-! ## Tuples that are too short -/

/-- Binds a tuple of no items and one of one item, and holds. -/
def shortTuples : Condition :=
  .new (.block [(0, .variadic .tuple []), (1, .variadic .tuple [.const (.bool true)])]
    (.const (.bool true)))

/-- **Short tuples are built.**  No tuple is embedded in the condition, and it is read from its
octets like any other.  Its reduction succeeds, and comes across a tuple of no items and a tuple of
one item. -/
theorem Condition.arity_of_noted_short :
    shortTuples.Embeds (·.Everywhere (Value.Arity 2)) .blank ∧
    ofBytes shortTuples.toBytes = .ok shortTuples ∧
    shortTuples.reduce .blank 60 = .ok ⟨.trivial true, 8⟩ ∧
    shortTuples.Notes .blank 60 (.tuple []) ∧ ¬(Value.tuple []).Arity 2 ∧
    shortTuples.Notes .blank 60 (.tuple [.bool true]) ∧ ¬(Value.tuple [.bool true]).Arity 2 := by
  refine ⟨⟨List.forall_mem_nil _, ?_, List.forall_mem_nil _, List.forall_mem_nil _⟩,
    by decide +kernel, by decide +kernel, by decide +kernel, by decide, by decide +kernel,
    by decide⟩
  rintro _ ⟨⟩ v hv
  have htrue : v = .bool true := by
    simpa [Expr.nodes, Expr.nodesDefs, Expr.nodesAll] using hv
  exact htrue ▸ Value.everywhere_atom.2 trivial

end Covenant

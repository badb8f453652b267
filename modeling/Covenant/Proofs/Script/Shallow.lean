/-
  SHALLOW — how deep the expressions are that a decoder reads.

  A decoder takes one level from what it reads for each operand and two for the body of a function.
  So what it reads is shallow, and an expression with room for every node is read back exactly when
  it is.

  1. **Parts** — what holds of an expression when it holds of the parts of each node holds of all
     expressions (`Expr.induction_on_parts`).
  2. **Counting** — the more levels a body counts, the deeper the expression; two levels make it at
     most twice as deep as one.
  3. **Reading** — `Expr.exactly_toBytes_iff`.
-/
import Covenant.Proofs.Script.Restoring
import Covenant.Proofs.Script.Taking

namespace Covenant

open Decoder

namespace Expr

/-! ## Parts -/

theorem sizeOf_lt_of_mem_operands {e s : Expr} (h : s ∈ e.operands) : sizeOf s < sizeOf e := by
  cases e with
  | block ds e =>
    rcases List.mem_append.1 h with h | h
    · obtain ⟨⟨i, s⟩, hd, rfl⟩ := List.mem_map.1 h
      -- the size of a list bounds that of the pair, and the pair is larger than its expression
      have hlist := List.sizeOf_lt_of_mem hd
      simp only [Prod.mk.sizeOf_spec, block.sizeOf_spec] at hlist ⊢
      omega
    · obtain rfl := List.mem_singleton.1 h
      simp only [block.sizeOf_spec]
      omega
  | variadic op es =>
    have hlist := List.sizeOf_lt_of_mem (show s ∈ es from h)
    simp only [variadic.sizeOf_spec]
    omega
  | collOf t es =>
    have hlist := List.sizeOf_lt_of_mem (show s ∈ es from h)
    simp only [collOf.sizeOf_spec]
    omega
  | byIndex c i d =>
    simp only [operands, List.mem_cons, Option.mem_toList] at h
    rcases h with rfl | rfl | rfl <;>
      simp only [byIndex.sizeOf_spec, Option.some.sizeOf_spec] <;> omega
  | const | placeholder | use | context | getVar | deserialize => cases h
  | unary | register | record | selectField | loop =>
    obtain rfl := List.mem_singleton.1 h
    simp only [unary.sizeOf_spec, register.sizeOf_spec, record.sizeOf_spec,
      selectField.sizeOf_spec, loop.sizeOf_spec]
    omega
  | binary | ternary | fold | dhTuple =>
    simp only [operands, List.mem_cons, List.not_mem_nil, or_false] at h
    simp only [binary.sizeOf_spec, ternary.sizeOf_spec, fold.sizeOf_spec, dhTuple.sizeOf_spec]
    grind

theorem sizeOf_lt_of_mem_bodies {e s : Expr} (h : s ∈ e.bodies) : sizeOf s < sizeOf e := by
  cases e with
  | loop op c sig b =>
    obtain rfl := List.mem_singleton.1 h
    simp only [loop.sizeOf_spec]
    omega
  | fold c z sig b =>
    obtain rfl := List.mem_singleton.1 h
    simp only [fold.sizeOf_spec]
    omega
  | _ => cases h

/-- What holds of an expression as soon as it holds of its parts holds of every expression. -/
theorem induction_on_parts {P : Expr → Prop}
    (node : ∀ e : Expr, (∀ s ∈ e.operands, P s) → (∀ s ∈ e.bodies, P s) → P e) (e : Expr) : P e :=
  node e (fun s hs => have := sizeOf_lt_of_mem_operands hs; induction_on_parts node s)
    fun s hs => have := sizeOf_lt_of_mem_bodies hs; induction_on_parts node s
termination_by sizeOf e

/-! ## Counting -/

/-- The more levels the body of a function counts, the deeper an expression is. -/
theorem depth_mono {j k : Nat} (hjk : j ≤ k) (e : Expr) : e.depth j ≤ e.depth k := by
  induction e using induction_on_parts with
  | node e operands bodies =>
    obtain ⟨hoperands, hbodies⟩ := depth_le_iff.1 (Nat.le_refl (e.depth k))
    refine depth_le_iff.2 ⟨fun s hs => Nat.lt_of_le_of_lt (operands s hs) (hoperands s hs), ?_⟩
    intro s hs
    have hbody := bodies s hs
    have hlevels := hbodies s hs
    omega

/-- Counting two levels for a body makes an expression at most twice as deep. -/
theorem depth_two_le (e : Expr) : e.depth 2 ≤ 2 * e.depth 1 := by
  induction e using induction_on_parts with
  | node e operands bodies =>
    obtain ⟨hoperands, hbodies⟩ := depth_le_iff.1 (Nat.le_refl (e.depth 1))
    refine depth_le_iff.2 ⟨fun s hs => ?_, fun s hs => ?_⟩
    · have hdeep := operands s hs
      have hlevels := hoperands s hs
      omega
    · have hdeep := bodies s hs
      have hlevels := hbodies s hs
      omega

/-! ## Reading -/

/-- **An expression that was read is as shallow as its decoder has levels.** -/
theorem takes_depth_lt {value : Decoder Value} (hvalue : Asks True value) (version : UInt8)
    (levels : Nat) :
    Takes (decoderWithin value version levels) fun e _ => e.depth 2 < levels := by
  induction levels using levels_induction with
  | tooDeep => exact .malformed _
  | node levels hsub hbody =>
    rw [decoderWithin_succ]
    refine .bind (.of_asks (asks_opcodeDecoder _)) fun op _ _ => ?_
    refine (takes_operandDecoder (T := fun _ => True) (.any ValueType.asks_decoder)
      (.of_asks hvalue) hsub hbody (fun _ h => h) (fun _ h => h) (fun _ h => h) op).imp
      fun e _ hparts => ?_
    refine Nat.lt_succ_of_le (depth_le_iff.2 ⟨hparts.operands, fun s hs => ?_⟩)
    have hlevels := hparts.bodies s hs
    omega

variable [Suite]

theorem shallow_of_decoder {version : UInt8} {b : Bytes} {e : Expr}
    (h : (Expr.decoder version).exactly b = .ok e) : e.Shallow := by
  have hrun := exactly_eq_ok.1 h
  rw [Expr.decoder] at hrun
  have hvalue := Value.asks_decoderWith (Box.asks_decoderWithin (b.length + 1))
  exact Nat.le_of_lt_succ ((takes_depth_lt hvalue _ _).ensures b e [] hrun)

/-- **An expression with room for every node is read back exactly when it is shallow.** -/
theorem exactly_toBytes_iff {e : Expr} (h : e.Fits) :
    (Expr.decoder e.requiredVersion).exactly e.toBytes = .ok e ↔ e.Shallow :=
  ⟨shallow_of_decoder, fun shallow =>
    ((Expr.Encodable.intro shallow h).reads (UInt8.le_refl _)).exactly⟩

end Expr

/-- The expression of a condition that was read is shallow. -/
theorem Condition.shallow_of_ofBytes [Suite] {b : Bytes} {c : Condition}
    (h : Condition.ofBytes b = .ok c) : ∀ e ∈ c.root?, e.Shallow := by
  have hvalue := Value.asks_decoderWith (Box.asks_decoderWithin (b.length + 1))
  refine ensures_ofBytesWith (Q := fun c => ∀ e ∈ c.root?, e.Shallow) (fun header => ?_) nofun h
  refine .check (.check (.check (.andThen fun constants => ?_)))
  refine .bind (Expr.takes_depth_lt hvalue _ _).ensures fun root hroot => .pure ?_
  rintro _ ⟨⟩
  exact Nat.le_of_lt_succ hroot

end Covenant

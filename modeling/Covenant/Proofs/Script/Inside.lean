/-
  INSIDE — how deep types, values, expressions and propositions lie inside one another.

  A decoder limits how deep a type, an expression and a proposition are.  A value is as deep as its
  type, until there is a box in it: a box has a condition and registers of its own, and nobody
  counts how many boxes lie inside one another.  Each of them takes octets, though.  So what is
  read is as deep as the limits allow on the way from one box to the next, and there are no more
  boxes on the way than the input has room for.

  1. **`nesting w`** — the deepest way down, where a level of each kind counts what `w` says.
  2. **`Bounded base f octets`** — at most `base` levels, `levelsPerBox` more for each box on the
     way, and `octetsPerBox` octets for each of them.  A node adds one level to the bound of its
     parts (`Bounded.node`).
  3. **Reading** — one bound for each reader; `Box.takes_bounded` closes the circle by induction on
     how many boxes the reader goes into.
-/
import Covenant.Proofs.Codec.Parts
import Covenant.Proofs.Codec.Propositions
import Covenant.Proofs.Script.Restoring
import Covenant.Proofs.Script.Taking

namespace Covenant

/-! ## Levels -/

/-- What lies inside something else. -/
inductive Level
  | type | value | expression | proposition
  /-- A box that occurs as a value. -/
  | box

namespace Level

/-- Each level counts. A box is a value, and counts as that. -/
def all : Level → Nat
  | .box => 0
  | _ => 1

/-- Nothing counts but the boxes. -/
def boxes : Level → Nat
  | .box => 1
  | _ => 0

end Level

/-- The largest of some numbers; zero without any. -/
def deepest (ns : List Nat) : Nat := ns.foldr max 0

theorem deepest_le_iff {ns : List Nat} {m : Nat} : deepest ns ≤ m ↔ ∀ n ∈ ns, n ≤ m := by
  induction ns with
  | nil => simp [deepest]
  | cons n ns ih =>
    rw [List.forall_mem_cons, ← ih]
    exact Nat.max_le

/-- How deep something nests, when a level of each kind counts what is given. -/
abbrev Nesting := (Level → Nat) → Nat

/-- Parts of a type lie as deep inside it as it is deep. -/
def ValueType.nesting (w : Level → Nat) (t : ValueType) : Nat := w .type * (t.depth + 1)

/-- Only propositions have parts. -/
def Atom.nesting (w : Level → Nat) : Atom → Nat
  | .sigmaProp p => w .proposition * (p.depth + 1)
  | _ => 0

/-- The types of the arguments and of the result. -/
def Signature.nesting (w : Level → Nat) (s : Signature) : Nat :=
  deepest ((s.args.map Prod.snd ++ [s.result]).map (ValueType.nesting w))

mutual

/-- How deep a value nests, through the boxes in it. -/
def Value.nesting (w : Level → Nat) : Value → Nat
  | .atom a => w .value + a.nesting w
  | .box b => w .value + b.nesting w
  | .bytes _ => w .value
  | .seq t vs => w .value + max (t.nesting w) (Value.nestingAll w vs)
  | .tuple vs => w .value + Value.nestingAll w vs
  | .option t none => w .value + t.nesting w
  | .option t (some v) => w .value + max (t.nesting w) (v.nesting w)

/-- The deepest of some values. -/
def Value.nestingAll (w : Level → Nat) : List Value → Nat
  | [] => 0
  | v :: vs => max (v.nesting w) (Value.nestingAll w vs)

/-- How deep an expression nests, with the types and the values in it. -/
def Expr.nesting (w : Level → Nat) : Expr → Nat
  | .const v => w .expression + v.nesting w
  | .placeholder _ | .use _ | .context _ => w .expression
  | .getVar _ t | .deserialize _ t => w .expression + t.nesting w
  | .block ds e => w .expression + max (Expr.nestingDefs w ds) (e.nesting w)
  | .variadic _ es => w .expression + Expr.nestingAll w es
  | .collOf t es => w .expression + max (t.nesting w) (Expr.nestingAll w es)
  | .unary _ e | .record _ e | .selectField e _ => w .expression + e.nesting w
  | .register e _ t => w .expression + max (t.nesting w) (e.nesting w)
  | .binary _ a b => w .expression + max (a.nesting w) (b.nesting w)
  | .ternary _ a b c => w .expression + max (a.nesting w) (max (b.nesting w) (c.nesting w))
  | .byIndex c i none => w .expression + max (c.nesting w) (i.nesting w)
  | .byIndex c i (some d) =>
    w .expression + max (c.nesting w) (max (i.nesting w) (d.nesting w))
  | .loop _ c s b => w .expression + max (s.nesting w) (max (c.nesting w) (b.nesting w))
  | .fold c z s b =>
    w .expression + max (s.nesting w) (max (max (c.nesting w) (z.nesting w)) (b.nesting w))
  | .dhTuple g h u v =>
    w .expression + max (max (g.nesting w) (h.nesting w)) (max (u.nesting w) (v.nesting w))

/-- The deepest of some expressions. -/
def Expr.nestingAll (w : Level → Nat) : List Expr → Nat
  | [] => 0
  | e :: es => max (e.nesting w) (Expr.nestingAll w es)

/-- The deepest right-hand side of some definitions. -/
def Expr.nestingDefs (w : Level → Nat) : List (UInt32 × Expr) → Nat
  | [] => 0
  | (_, e) :: ds => max (e.nesting w) (Expr.nestingDefs w ds)

/-- The constants and the expression; nothing lies inside what was kept unread. -/
def Condition.nesting (w : Level → Nat) : Condition → Nat
  | .parsed _ cs e => max (Value.nestingAll w cs) (e.nesting w)
  | .unparsed _ _ => 0

/-- The condition and the registers. -/
def Candidate.nesting (w : Level → Nat) : Candidate → Nat
  | ⟨_, c, _, rs, _⟩ => max (c.nesting w) (Value.nestingAll w rs)

/-- A box is one level around the output that it was. -/
def Box.nesting (w : Level → Nat) : Box → Nat
  | ⟨c, _, _⟩ => w .box + c.nesting w

end

variable {w : Level → Nat} {m : Nat}

theorem Value.nestingAll_le_iff {vs : List Value} :
    nestingAll w vs ≤ m ↔ ∀ v ∈ vs, v.nesting w ≤ m := by
  induction vs with
  | nil => simp [nestingAll]
  | cons v vs ih => rw [nestingAll, Nat.max_le, ih, List.forall_mem_cons]

theorem Expr.nestingAll_le_iff {es : List Expr} :
    nestingAll w es ≤ m ↔ ∀ e ∈ es, e.nesting w ≤ m := by
  induction es with
  | nil => simp [nestingAll]
  | cons e es ih => rw [nestingAll, Nat.max_le, ih, List.forall_mem_cons]

theorem Expr.nestingDefs_le_iff {ds : List (UInt32 × Expr)} :
    nestingDefs w ds ≤ m ↔ ∀ e ∈ ds.map Prod.snd, e.nesting w ≤ m := by
  induction ds with
  | nil => simp [nestingDefs]
  | cons d ds ih => rw [nestingDefs, Nat.max_le, ih, List.map_cons, List.forall_mem_cons]

theorem Signature.nesting_le_iff {s : Signature} :
    s.nesting w ≤ m ↔ ∀ t ∈ s.args.map Prod.snd ++ [s.result], t.nesting w ≤ m := by
  rw [nesting, deepest_le_iff, List.forall_mem_map]

/-! ## Parts -/

/-- What lies directly inside a value. -/
def Value.parts : Value → List Nesting
  | .atom a => [(a.nesting ·)]
  | .box b => [(b.nesting ·)]
  | .bytes _ => []
  | .seq t vs => (t.nesting ·) :: vs.map fun v w => v.nesting w
  | .tuple vs => vs.map fun v w => v.nesting w
  | .option t v => (t.nesting ·) :: v.toList.map fun v w => v.nesting w

/-- A value is one level around what lies in it. -/
theorem Value.nesting_le_iff {v : Value} :
    v.nesting w ≤ w .value + m ↔ ∀ f ∈ v.parts, f w ≤ m := by
  cases v with
  | seq t vs =>
    rw [nesting, Nat.add_le_add_iff_left, Nat.max_le, nestingAll_le_iff, parts,
      List.forall_mem_cons, List.forall_mem_map]
  | tuple vs => rw [nesting, Nat.add_le_add_iff_left, nestingAll_le_iff, parts, List.forall_mem_map]
  | option t v => cases v <;> simp [nesting, parts]
  | _ => simp [nesting, parts]

/-- What lies directly inside an expression. -/
def Expr.parts (e : Expr) : List Nesting :=
  (e.types.map fun t w => t.nesting w) ++ (e.values.map fun v w => v.nesting w) ++
  (e.operands.map fun e w => e.nesting w) ++ e.bodies.map fun e w => e.nesting w

/-- An expression is one level around what lies in it. -/
theorem Expr.nesting_le_iff {e : Expr} :
    e.nesting w ≤ w .expression + m ↔ ∀ f ∈ e.parts, f w ≤ m := by
  rw [parts]
  simp only [List.forall_mem_append, List.forall_mem_map]
  cases e with
  | block ds e =>
    rw [nesting, Nat.add_le_add_iff_left, Nat.max_le, nestingDefs_le_iff]
    simp [types, values, operands, bodies, or_imp, forall_and]
  | variadic op es =>
    rw [nesting, Nat.add_le_add_iff_left, nestingAll_le_iff]
    simp [types, values, operands, bodies]
  | collOf t es =>
    rw [nesting, Nat.add_le_add_iff_left, Nat.max_le, nestingAll_le_iff]
    simp [types, values, operands, bodies]
  | byIndex c i d => cases d <;> simp [nesting, types, values, operands, bodies]
  | loop op c s b =>
    rw [nesting, Nat.add_le_add_iff_left, Nat.max_le, Nat.max_le, Signature.nesting_le_iff]
    simp [types, values, operands, bodies, and_assoc]
  | fold c z s b =>
    rw [nesting, Nat.add_le_add_iff_left, Nat.max_le, Nat.max_le, Nat.max_le,
      Signature.nesting_le_iff]
    simp [types, values, operands, bodies, and_assoc]
  | _ => simp [nesting, types, values, operands, bodies]

/-- What lies directly inside a condition: the constants and the expression. -/
def Condition.parts : Condition → List Nesting
  | .parsed _ cs e => (e.nesting ·) :: cs.map fun v w => v.nesting w
  | .unparsed _ _ => []

theorem Condition.nesting_le_iff {c : Condition} : c.nesting w ≤ m ↔ ∀ f ∈ c.parts, f w ≤ m := by
  cases c with
  | parsed header cs e =>
    rw [nesting, Nat.max_le, Value.nestingAll_le_iff, parts, List.forall_mem_cons,
      List.forall_mem_map, and_comm]
  | unparsed octets reason => simp [nesting, parts]

/-- What lies directly inside an output: the condition and the registers. -/
def Candidate.parts (c : Candidate) : List Nesting :=
  (c.condition.nesting ·) :: c.registers.map fun v w => v.nesting w

theorem Candidate.nesting_le_iff {c : Candidate} : c.nesting w ≤ m ↔ ∀ f ∈ c.parts, f w ≤ m := by
  cases c
  rw [nesting, Nat.max_le, Value.nestingAll_le_iff, parts, List.forall_mem_cons,
    List.forall_mem_map]

theorem Box.nesting_eq (b : Box) : b.nesting w = w .box + b.candidate.nesting w := by
  cases b
  rfl

/-! ## Bounds -/

/-- Most levels from one box to the next: those of a value, and those of the expression in the
condition of the outer box. -/
def levelsPerBox : Nat := (maxTypeDepth + 1) + (maxExprDepth + 1)

/-- Fewest octets of a box besides those that its condition and its registers take. -/
def octetsPerBox : Nat := 60

/-- What nests at most `base` levels deep apart from its boxes, and no deeper than the octets have
room for boxes. -/
structure Bounded (base : Nat) (f : Nesting) (octets : Nat) : Prop where
  levels : f Level.all ≤ base + levelsPerBox * f Level.boxes
  room : octetsPerBox * f Level.boxes ≤ octets

namespace Bounded

open Decoder

variable {base octets : Nat} {f : Nesting}

theorem mono {base' octets' : Nat} (h : Bounded base f octets) (hbase : base ≤ base')
    (hoctets : octets ≤ octets') : Bounded base' f octets' :=
  ⟨Nat.le_trans h.levels (Nat.add_le_add_right hbase _), Nat.le_trans h.room hoctets⟩

theorem enlarge {octets' : Nat} (hle : octets ≤ octets') (h : Bounded base f octets) :
    Bounded base f octets' :=
  h.mono (Nat.le_refl _) hle

/-- Without boxes the levels are all there is. -/
theorem of_le (hboxes : f Level.boxes = 0) (hall : f Level.all ≤ base) :
    Bounded base f octets := by
  refine ⟨Nat.le_trans hall (Nat.le_add_right _ _), ?_⟩
  rw [hboxes]
  exact Nat.zero_le _

/-- What has its own levels around its parts is bounded as they are, by so much more. -/
theorem around (own : Nesting) {parts : List Nesting} {own' : Nat}
    (hparts : ∀ w m, f w ≤ own w + m ↔ ∀ g ∈ parts, g w ≤ m) (hboxes : own Level.boxes = 0)
    (hown : own Level.all ≤ own') (h : ∀ g ∈ parts, Bounded base g octets) :
    Bounded (base + own') f octets where
  levels := by
    -- no part has more boxes on its way down than the whole has
    have hfew : ∀ g ∈ parts, g Level.boxes ≤ f Level.boxes :=
      (hparts Level.boxes _).1 (Nat.le_add_left _ _)
    have hall := (hparts Level.all (base + levelsPerBox * f Level.boxes)).2 fun g hg =>
      Nat.le_trans (h g hg).levels
        (Nat.add_le_add_left (Nat.mul_le_mul_left _ (hfew g hg)) _)
    omega
  room := by
    -- as a bound on the number of boxes, what the parts have room for passes to the whole
    have hfew := (hparts Level.boxes (octets / octetsPerBox)).2 fun g hg =>
      (Nat.le_div_iff_mul_le (by decide)).2 (Nat.mul_comm _ _ ▸ (h g hg).room)
    rw [hboxes, Nat.zero_add, Nat.le_div_iff_mul_le (by decide)] at hfew
    rwa [Nat.mul_comm]

/-- A value is one level around its parts. -/
theorem value {v : Value} (h : ∀ g ∈ v.parts, Bounded base g octets) :
    Bounded (base + 1) (v.nesting ·) octets :=
  around _ (fun _ _ => Value.nesting_le_iff) rfl (Nat.le_refl 1) h

/-- An expression is one level around its parts. -/
theorem expression {e : Expr} (h : ∀ g ∈ e.parts, Bounded base g octets) :
    Bounded (base + 1) (e.nesting ·) octets :=
  around _ (fun _ _ => Expr.nesting_le_iff) rfl (Nat.le_refl 1) h

theorem condition {c : Condition} (h : ∀ g ∈ c.parts, Bounded base g octets) :
    Bounded base (c.nesting ·) octets :=
  around (fun _ => 0) (fun _ _ => by rw [Nat.zero_add, Condition.nesting_le_iff]) rfl
    (Nat.le_refl 0) h

theorem candidate {c : Candidate} (h : ∀ g ∈ c.parts, Bounded base g octets) :
    Bounded base (c.nesting ·) octets :=
  around (fun _ => 0) (fun _ _ => by rw [Nat.zero_add, Candidate.nesting_le_iff]) rfl
    (Nat.le_refl 0) h

theorem type {t : ValueType} (h : t.depth < base) : Bounded base (t.nesting ·) octets :=
  of_le (Nat.zero_mul _) ((Nat.one_mul _).trans_le h)

end Bounded

/-! ## Reading -/

open Decoder

theorem ValueType.takes_depth_lt (levels : Nat) :
    Takes (ValueType.decoderWithin levels) fun t _ => t.depth < levels := by
  induction levels with
  | zero => exact .malformed _
  | succ levels ih =>
    refine .bind (.any .u8) fun c _ _ => ?_
    split
    · exact .bind ih fun t _ ht => .pure (Nat.succ_lt_succ ht)
    · exact .bind ih fun t _ ht => .pure (Nat.succ_lt_succ ht)
    · exact .bind (.any (.number 4)) fun k _ _ => .check fun _ => .check fun _ =>
        .bind (ih.replicate (fun _ h => h) k) fun ts _ hts =>
          .pure (Nat.lt_succ_of_le (depthAll_le_iff.2 hts))
    · split
      · exact .malformed _
      · exact .pure (Nat.succ_pos _)

theorem ValueType.takes_depth_le :
    Takes ValueType.decoder fun t _ => t.depth ≤ maxTypeDepth :=
  (takes_depth_lt _).imp fun _ _ => Nat.le_of_lt_succ

/-- Most levels of a value without boxes: one for each level of its type, and the proposition that
may be at the end. -/
def Value.maxLevels : Nat := (maxTypeDepth + 1) + (maxDepth + 1)

/-- Most levels of a condition without boxes: its expression, and a constant at the end. -/
def Condition.maxLevels : Nat := (maxExprDepth + 1) + Value.maxLevels

example : Value.maxLevels = 144 ∧ Condition.maxLevels = 185 ∧ levelsPerBox = 74 := by decide

section

variable {value : Decoder Value}
  (hvalue : Takes value fun v n => Bounded Value.maxLevels (v.nesting ·) n)
include hvalue

/-- An expression has no more levels than its decoder, and those of a constant. -/
theorem Expr.takes_bounded (version : UInt8) (levels : Nat) :
    Takes (decoderWithin value version levels) fun e n =>
      Bounded (levels + Value.maxLevels) (e.nesting ·) n := by
  induction levels using levels_induction with
  | tooDeep => exact .malformed _
  | node levels hsub hbody =>
    rw [decoderWithin_succ]
    refine .bind (.of_asks (asks_opcodeDecoder _)) fun op _ _ => ?_
    refine (takes_operandDecoder ValueType.takes_depth_le hvalue hsub hbody Bounded.enlarge
      Bounded.enlarge Bounded.enlarge op).imp fun e n hparts => ?_
    have hnode : ∀ g ∈ e.parts, Bounded (levels + Value.maxLevels) g n := ?_
    · exact (Bounded.expression hnode).mono (by omega) (by omega)
    -- types and values have bounds of their own, and the rest is one or two levels down
    simp only [parts, List.forall_mem_append, List.forall_mem_map]
    refine ⟨⟨⟨fun t ht => .type ?_, fun v hv => ?_⟩, hparts.operands⟩, fun s hs => ?_⟩
    · exact Nat.lt_of_le_of_lt (hparts.types t ht) (by rw [Value.maxLevels]; omega)
    · exact (hparts.values v hv).mono (by omega) (Nat.le_refl _)
    · exact (hparts.bodies s hs).mono (by omega) (Nat.le_refl _)

/-- A condition has no more levels than its expression. -/
theorem Condition.takes_bounded (header : UInt8) :
    Takes (bodyDecoder value header) fun c n => Bounded maxLevels (c.nesting ·) n := by
  have hconstants : Takes (constantsDecoder value header) fun cs n =>
      ∀ v ∈ cs, Bounded Value.maxLevels (v.nesting ·) n := by
    refine .ite (.bind (.any .count) fun k _ _ => ?_) (.pure nofun)
    exact (hvalue.replicate Bounded.enlarge k).imp fun vs n hvs v hv =>
      (hvs v hv).mono (Nat.le_refl _) (Nat.le_add_left _ _)
  refine .check fun _ => .check fun _ => .check fun _ => .bind hconstants fun cs n hcs =>
    .bind (Expr.takes_bounded hvalue _ _) fun e n' he => .pure (.condition ?_)
  refine List.forall_mem_cons.2 ⟨he.mono (Nat.le_refl _) (by omega), List.forall_mem_map.2 ?_⟩
  exact fun v hv => (hcs v hv).mono (Nat.le_add_left _ _) (by omega)

theorem Condition.bounded_ofBytesWith {b : Bytes} {c : Condition}
    (h : ofBytesWith value b = .ok c) : Bounded maxLevels (c.nesting ·) b.length := by
  rcases read_or_kept h with ⟨header, body, hsuffix, hread⟩ | ⟨reason, rfl⟩
  · exact ((takes_bounded hvalue header).exactly hread).mono (Nat.le_refl _) hsuffix.length_le
  · exact .condition nofun

/-- An output has twenty-four octets that are neither of its condition nor of its registers. -/
theorem Candidate.takes_bounded : Takes (decoderWith value) fun c n =>
    ∃ inside, inside + 24 ≤ n ∧ Bounded Condition.maxLevels (c.nesting ·) inside := by
  -- eight octets for the amount, and four each for the height and for three lengths
  refine .bind .u64 fun amount n₁ hn₁ => .bind .string fun script n₂ hn₂ =>
    .bind .lift fun condition n₃ hcondition => .bind .u32 fun height n₄ hn₄ =>
    .bind .number fun k n₅ hn₅ => .check fun _ =>
    .bind (.any (Token.asks_decoder.replicate k)) fun tokens n₆ _ =>
    .bind .number fun m n₇ hn₇ => .check fun _ =>
    .bind (hvalue.replicate Bounded.enlarge m) fun rs n₈ hrs =>
    .pure ⟨script.length + n₈, by omega, .candidate ?_⟩
  have hread := Condition.bounded_ofBytesWith hvalue hcondition.2
  refine List.forall_mem_cons.2 ⟨hread.mono (Nat.le_refl _) (by omega), List.forall_mem_map.2 ?_⟩
  exact fun v hv => (hrs v hv).mono (Nat.le_add_left _ _) (by omega)

/-- A box is another level of boxes, and takes its octets. -/
theorem Box.takes_boundedWith :
    Takes (decoderWith value) fun b n => Bounded (maxDepth + 1) (b.nesting ·) n := by
  refine .bind (Candidate.takes_bounded hvalue) fun c n ⟨inside, hinside, hc⟩ =>
    .bind .octets fun tx n' hn' => .bind .u32 fun index n'' hn'' => .check fun _ => .pure ⟨?_, ?_⟩
  -- an output has `levelsPerBox` more levels than a proposition, and these go to the new box
  · have hlevels := hc.levels
    simp only [nesting_eq, Level.all, Level.boxes, Condition.maxLevels, Value.maxLevels,
      levelsPerBox, Nat.mul_add, Nat.mul_one] at hlevels ⊢
    omega
  · have hroom := hc.room
    simp only [nesting_eq, Level.boxes, octetsPerBox] at hroom ⊢
    omega

end

variable [Suite]

theorem Proposition.takes_depth_le :
    Takes Proposition.decoder fun p _ => p.depth ≤ maxDepth :=
  (Takes.of_faithful fun _ => faithful_decoder).imp fun _ _ ⟨_, _, _, _, hdepth⟩ => hdepth

section

variable {box : Decoder Box}

theorem AtomType.takes_bounded
    (hbox : Takes box fun b n => Bounded (maxDepth + 1) (b.nesting ·) n) (a : AtomType) :
    Takes (a.dataDecoder box) fun v n => Bounded (maxDepth + 2) (v.nesting ·) n := by
  -- most atoms have nothing inside
  have hplain {a : Atom} {n : Nat} (h : ∀ w, a.nesting w = 0) :
      Bounded (maxDepth + 2) ((Value.atom a).nesting ·) n :=
    .value (List.forall_mem_singleton.2 (.of_le (h _) ((h _).trans_le (Nat.zero_le _))))
  cases a with
  | bool =>
    exact .bind (.any (asks_flagDecoder not_false)) fun _ _ _ => .pure (hplain fun _ => rfl)
  | byte => exact .bind (.any .u8) fun _ _ _ => .pure (hplain fun _ => rfl)
  | short => exact .bind (.any .u16) fun _ _ _ => .pure (hplain fun _ => rfl)
  | int => exact .bind (.any .u32) fun _ _ _ => .pure (hplain fun _ => rfl)
  | long => exact .bind (.any .u64) fun _ _ _ => .pure (hplain fun _ => rfl)
  | bigInt => exact .bind (.any BigInt.asks_decoder) fun _ _ _ => .pure (hplain fun _ => rfl)
  | groupElement => exact .bind (.any .point) fun _ _ _ => .pure (hplain fun _ => rfl)
  | stateTree =>
    exact .bind (.any StateTree.asks_decoder) fun _ _ _ => .pure (hplain fun _ => rfl)
  | header => exact .bind (.any Header.asks_decoder) fun _ _ _ => .pure (hplain fun _ => rfl)
  | preHeader =>
    exact .bind (.any PreHeader.asks_decoder) fun _ _ _ => .pure (hplain fun _ => rfl)
  | sigmaProp =>
    refine .bind Proposition.takes_depth_le fun p _ hp => .pure ?_
    -- a proposition counts its own levels, and the decoder bounds these
    refine .value (List.forall_mem_singleton.2 (.of_le (Nat.zero_mul _) ?_))
    exact (Nat.one_mul _).trans_le (Nat.succ_le_succ hp)
  | box =>
    exact .bind hbox fun b n hb => .pure (.value (List.forall_mem_singleton.2 hb))

mutual

/-- A value has no more levels than its type, and those of what is at the end. -/
theorem ValueType.takes_bounded
    (hbox : Takes box fun b n => Bounded (maxDepth + 1) (b.nesting ·) n) : (t : ValueType) →
    Takes (t.dataDecoder box) fun v n => Bounded (t.depth + (maxDepth + 2)) (v.nesting ·) n
  | .atom a => (a.takes_bounded hbox).imp fun _ _ h => h.mono (Nat.le_add_left _ _) (Nat.le_refl _)
  | .coll t => by
    have htype {n : Nat} : Bounded (t.depth + (maxDepth + 2)) (t.nesting ·) n :=
      .type (by omega)
    have hitem := ValueType.takes_bounded hbox t
    refine .ite (.bind (.any .string) fun s n _ => .pure ?_) (.bind (.any .count) fun k _ _ =>
      .bind (hitem.replicate Bounded.enlarge k) fun vs n hvs => .pure ?_)
    · -- octets have no parts
      have hbytes : Bounded 1 ((Value.bytes s).nesting ·) n := .value nofun
      exact hbytes.mono (by rw [depth]; omega) (Nat.le_add_right n 0)
    · -- the items come from later octets, and the type was read before any
      have hparts : ∀ g ∈ (Value.seq t vs).parts, Bounded (t.depth + (maxDepth + 2)) g n :=
        List.forall_mem_cons.2 ⟨htype, List.forall_mem_map.2 hvs⟩
      exact (Bounded.value hparts).mono (by rw [depth]; omega) (by omega)
  | .tuple ts => by
    refine .bind (ValueType.takes_boundedAll hbox ts) fun vs n hvs => .pure ?_
    have hparts : ∀ g ∈ (Value.tuple vs).parts, Bounded (depthAll ts + (maxDepth + 1)) g n :=
      List.forall_mem_map.2 hvs
    exact (Bounded.value hparts).mono (by rw [depth]; omega) (by omega)
  | .option t => by
    have htype {n : Nat} : Bounded (t.depth + (maxDepth + 2)) (t.nesting ·) n :=
      .type (by omega)
    refine .bind (.any (asks_flagDecoder not_false)) fun _ _ _ => .ite
      (.bind (ValueType.takes_bounded hbox t) fun v n hv => .pure ?_) (.pure ?_)
    · have hparts : ∀ g ∈ (Value.option t (some v)).parts, Bounded (t.depth + (maxDepth + 2)) g n :=
        List.forall_mem_cons.2 ⟨htype, List.forall_mem_singleton.2 hv⟩
      exact (Bounded.value hparts).mono (by rw [depth]; omega) (by omega)
    · have hparts : ∀ g ∈ (Value.option t none).parts, Bounded (t.depth + (maxDepth + 2)) g 0 :=
        List.forall_mem_singleton.2 htype
      exact (Bounded.value hparts).mono (by rw [depth]; omega) (Nat.zero_le _)

theorem ValueType.takes_boundedAll
    (hbox : Takes box fun b n => Bounded (maxDepth + 1) (b.nesting ·) n) :
    (ts : List ValueType) → Takes (ValueType.dataDecoderAll box ts) fun vs n =>
      ∀ v ∈ vs, Bounded (depthAll ts + (maxDepth + 1)) (v.nesting ·) n
  | [] => .pure nofun
  | t :: ts => by
    refine .bind (ValueType.takes_bounded hbox t) fun v n hv =>
      .bind (ValueType.takes_boundedAll hbox ts) fun vs n' hvs => .pure ?_
    simp only [depthAll]
    exact List.forall_mem_cons.2 ⟨hv.mono (by omega) (by omega),
      fun u hu => (hvs u hu).mono (by omega) (by omega)⟩

end

theorem Value.takes_bounded
    (hbox : Takes box fun b n => Bounded (maxDepth + 1) (b.nesting ·) n) :
    Takes (Value.decoderWith box) fun v n => Bounded maxLevels (v.nesting ·) n :=
  .bind ValueType.takes_depth_le fun t _ ht => (t.takes_bounded hbox).imp fun v n hv =>
    hv.mono (by rw [maxLevels]; omega) (by omega)

end

/-- **Boxes inside boxes**: each reader goes into one box more than the one before. -/
theorem Box.takes_bounded (levels : Nat) :
    Takes (Box.decoderWithin levels) fun b n => Bounded (maxDepth + 1) (b.nesting ·) n := by
  induction levels with
  | zero => exact .fail _
  | succ levels ih => exact Box.takes_boundedWith (Value.takes_bounded ih)

/-- A value that was read, with whatever is in it. -/
theorem Value.takes_bounded_decoder :
    Takes Value.decoder fun v n => Bounded maxLevels (v.nesting ·) n :=
  fun b => Value.takes_bounded (Box.takes_bounded (b.length + 1)) b

theorem Candidate.takes_bounded_decoder :
    Takes Candidate.decoder fun c n => Bounded Condition.maxLevels (c.nesting ·) n := by
  intro b v r h
  have hvalue := Value.takes_bounded (Box.takes_bounded (b.length + 1))
  obtain ⟨n, hn, inside, hinside, hc⟩ := Candidate.takes_bounded hvalue b v r h
  exact ⟨n, hn, hc.mono (Nat.le_refl _) (by omega)⟩

theorem Condition.bounded_ofBytes {b : Bytes} {c : Condition} (h : Condition.ofBytes b = .ok c) :
    Bounded maxLevels (c.nesting ·) b.length :=
  Condition.bounded_ofBytesWith (Value.takes_bounded (Box.takes_bounded (b.length + 1))) h

end Covenant

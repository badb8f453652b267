/-
  LEXICAL — which bindings an expression sees.

  A variable is free in an expression when it is used where no definition and no argument of it is
  around.  Scripts that are read while the expression runs have no part in this: they see nothing of
  the stack.

  1. **Free variables** — `Expr.free` collects them from the inside out: a definition takes its
     variable from what comes after it, a function its arguments from its body.
  2. **The induction** — a machine whose stack has the innermost bindings of the free variables does
     what the evaluator does, whatever else is on the stack (`Expr.mirrors_execWith`).  The case of a
     block says how the stack has grown by the time its body runs.
  3. **Scripts** — the flag is set while one runs, so it mirrors `Expr.evalNested`; and it starts with
     an empty stack, so there is nothing for its free variables to see.
  4. **`Expr.lexical_scoping`** — so two machines with different stacks cannot be told apart by
     expressions whose free variables they agree on.
-/
import Covenant.Proofs.Reduction.Gating
import Covenant.Proofs.Reduction.Mirroring

namespace Covenant

open MachineM

/-! ## Free variables -/

/-- The variables of the arguments. -/
def Signature.ids (sig : Signature) : List UInt32 := sig.args.map Prod.fst

namespace Expr

mutual

/-- The variables that occur free. -/
def free : Expr → List UInt32
  | .const _ => []
  | .placeholder _ => []
  | .use i => [i]
  | .block ds e => freeDefs ds e.free
  | .variadic _ es => freeAll es
  | .collOf _ es => freeAll es
  | .context _ => []
  | .getVar _ _ => []
  | .unary _ e => e.free
  | .register e _ _ => e.free
  | .record _ e => e.free
  | .binary _ a b => a.free ++ b.free
  | .ternary _ a b c => a.free ++ b.free ++ c.free
  | .byIndex c i none => c.free ++ i.free
  | .byIndex c i (some d) => c.free ++ i.free ++ d.free
  | .loop _ c sig b => c.free ++ b.free.filter (· ∉ sig.ids)
  | .fold c z sig b => c.free ++ z.free ++ b.free.filter (· ∉ sig.ids)
  | .selectField e _ => e.free
  | .dhTuple g h u v => g.free ++ h.free ++ u.free ++ v.free
  | .deserialize _ _ => []

/-- The variables that occur free in some expressions. -/
def freeAll : List Expr → List UInt32
  | [] => []
  | e :: es => e.free ++ freeAll es

/-- The variables that occur free in some definitions, or after them among those `used` there. -/
def freeDefs : List (UInt32 × Expr) → List UInt32 → List UInt32
  | [], used => used
  | (i, e) :: ds, used => e.free ++ (freeDefs ds used).filter (· ≠ i)

end

end Expr

/-! ## Stacks that agree -/

/-- Two stacks have the same innermost bindings of some variables, or none. -/
def SameOn (ids : List UInt32) (bs cs : List (UInt32 × Value)) : Prop :=
  ∀ i ∈ ids, bs.lookup i = cs.lookup i

namespace SameOn

variable {ids ids' : List UInt32} {bs cs : List (UInt32 × Value)}

theorem append_iff : SameOn (ids ++ ids') bs cs ↔ SameOn ids bs cs ∧ SameOn ids' bs cs :=
  List.forall_mem_append

/-- A binding on top of both stacks hides what they have of its variable. -/
theorem push {i : UInt32} (h : ∀ j ∈ ids, j ≠ i → bs.lookup j = cs.lookup j) (v : Value) :
    SameOn ids ((i, v) :: bs) ((i, v) :: cs) := by
  intro j hj
  by_cases hji : j = i
  · subst hji
    rw [List.lookup_cons_self, List.lookup_cons_self]
  · rw [List.lookup_cons, List.lookup_cons, beq_false_of_ne hji]
    exact h j hj hji

theorem define {i : UInt32} (h : SameOn (ids.filter (· ≠ i)) bs cs) (v : Value) :
    SameOn ids ((i, v) :: bs) ((i, v) :: cs) :=
  push (fun j hj hji => h j (List.mem_filter.2 ⟨hj, decide_eq_true hji⟩)) v

theorem argument {sig : Signature} {i : UInt32} {t : ValueType} (hargs : sig.args = [(i, t)])
    (h : SameOn (ids.filter (· ∉ sig.ids)) bs cs) (v : Value) :
    SameOn ids ((i, v) :: bs) ((i, v) :: cs) := by
  refine push (fun j hj hji => h j (List.mem_filter.2 ⟨hj, decide_eq_true fun hmem => hji ?_⟩)) v
  rw [Signature.ids, hargs] at hmem
  exact List.mem_singleton.1 hmem

end SameOn

/-! ## The induction -/

/-- A scope with another stack. -/
def Scope.over (sc : Scope) (bs : List (UInt32 × Value)) : Scope := { sc with bindings := bs }

/-- Cutting the stack back to its old height takes away what was pushed. -/
theorem Frame.truncate_over (sc : Scope) (n : Bool) (new bs : List (UInt32 × Value)) :
    Frame.truncate bs.length ⟨sc.over (new ++ bs), n⟩ = ⟨sc.over bs, n⟩ := by
  show Frame.mk (sc.over ((new ++ bs).drop ((new ++ bs).length - bs.length))) n = _
  rw [List.length_append, Nat.add_sub_cancel, List.drop_left]

section

variable [Suite]

/-- **Only the bindings of the free variables matter.**  A machine with such bindings on its stack
does what an expression evaluates to, and leaves its frame as it was. -/
theorem Expr.mirrors_execWith {script : Scope → UInt8 → ValueType → EvalM Value}
    {run : UInt8 → ValueType → MachineM Value} {n : Bool}
    (hscript : ∀ sc bs i t,
      Mirrors ⟨sc.over bs, n⟩ ⟨sc.over bs, n⟩ (run i t) (script sc i t)) (e : Expr) (sc : Scope) :
    ∀ bs, SameOn e.free bs sc.bindings →
      Mirrors ⟨sc.over bs, n⟩ ⟨sc.over bs, n⟩ (e.execWith run) (e.evalWith script sc) := by
  -- one case for each node, for each of the three kinds of lists, and for their ends; what comes
  -- after definitions is part of their motive, since the stack has grown by then
  refine (Expr.evalWith.mutual_induct
    (motive_1 := fun e sc => ∀ bs, SameOn e.free bs sc.bindings →
      Mirrors ⟨sc.over bs, n⟩ ⟨sc.over bs, n⟩ (e.execWith run) (e.evalWith script sc))
    (motive_2 := fun es sc => ∀ bs, SameOn (freeAll es) bs sc.bindings →
      Mirrors ⟨sc.over bs, n⟩ ⟨sc.over bs, n⟩ (execPropositions run es)
        (evalPropositions script es sc))
    (motive_3 := fun es sc => ∀ bs, SameOn (freeAll es) bs sc.bindings →
      Mirrors ⟨sc.over bs, n⟩ ⟨sc.over bs, n⟩ (execAll run es) (evalAll script es sc))
    (motive_4 := fun ds sc => ∀ bs used g (x : MachineM Value) (y : Scope → EvalM Value),
      SameOn (freeDefs ds used) bs sc.bindings →
      (∀ new, SameOn used (new ++ bs) (new ++ sc.bindings) →
        Mirrors ⟨sc.over (new ++ bs), n⟩ g x (y (sc.over (new ++ sc.bindings)))) →
      Mirrors ⟨sc.over bs, n⟩ g (execDefs run ds >>= fun _ => x) (evalDefs script ds sc >>= y))
    ?const ?placeholder ?use ?block ?tuple ?sigmaAnd ?sigmaOr ?collOf ?context ?getVar ?unary
    ?register ?record ?arith ?compare ?and ?or ?orElse ?atLeast ?ifThenElse ?slice ?byIndex
    ?byIndexOr ?loop ?fold ?select ?dhTuple ?deserialize ?defsNil ?defsCons ?propsNil ?propsCons
    ?allNil ?allCons).1 e sc
  all_goals
    intros
    simp only [execWith, execPropositions, execAll, execDefs, evalWith, evalPropositions, evalAll,
      evalDefs]
  case const => exact mirrors_node rfl (.pure _)
  case placeholder => exact mirrors_node rfl (.frame (.metered _))
  case use i sc bs h =>
    -- the only node that asks for a name, and the name is free in it
    have hlookup : bs.lookup i = sc.bindings.lookup i := h i List.mem_cons_self
    refine mirrors_node rfl (.frame ?_)
    rw [show (Frame.mk (sc.over bs) n).descend.bindings = bs from rfl, hlookup]
    exact .metered _
  case block ds e sc hds he bs h =>
    -- the definitions grow the stack for what follows them, and the block cuts it back at the end
    exact mirrors_node rfl (.frame (hds sc.deeper bs e.free _ _ _ h fun new hnew =>
      .during (Frame.truncate_over sc.deeper n new bs)
        (he (sc.deeper.over (new ++ sc.bindings)) (new ++ bs) hnew)))
  case tuple sc hes bs h | sigmaAnd sc hes bs h | sigmaOr sc hes bs h =>
    exact mirrors_node rfl (.check (.bind (hes sc.deeper bs h) fun _ => .pure _))
  case collOf sc hes bs h =>
    exact mirrors_node rfl (.bind (.metered _) fun _ => .bind (hes sc.deeper bs h) fun _ =>
      .metered _)
  case context | getVar => exact mirrors_node rfl (.frame (.metered _))
  case unary sc he bs h | record sc he bs h | select sc he bs h =>
    exact mirrors_node rfl (.bind (he sc.deeper bs h) fun _ => .metered _)
  case register sc he bs h =>
    exact mirrors_node rfl (.bind (he sc.deeper bs h) fun _ => .bind (.metered _) fun _ =>
      .metered _)
  case arith sc ha hb bs h | compare sc ha hb bs h =>
    obtain ⟨h, h'⟩ := SameOn.append_iff.1 h
    exact mirrors_node rfl (.bind (ha sc.deeper bs h) fun _ => .bind (hb sc.deeper bs h') fun _ =>
      .metered _)
  case and sc ha hb bs h =>
    -- evaluated or not, the right side finds the stack that the left side found
    obtain ⟨h, h'⟩ := SameOn.append_iff.1 h
    exact mirrors_node rfl (.bind (ha sc.deeper bs h) fun _ => .bind (.metered _) fun _ =>
      .ite (.bind (hb sc.deeper bs h') fun _ => .bind (.metered _) fun _ => .pure _) (.pure _))
  case or sc ha hb bs h =>
    obtain ⟨h, h'⟩ := SameOn.append_iff.1 h
    exact mirrors_node rfl (.bind (ha sc.deeper bs h) fun _ => .bind (.metered _) fun _ =>
      .ite (.pure _) (.bind (hb sc.deeper bs h') fun _ => .bind (.metered _) fun _ => .pure _))
  case orElse sc ha hb bs h =>
    obtain ⟨h, h'⟩ := SameOn.append_iff.1 h
    refine mirrors_node rfl (.bind (ha sc.deeper bs h) fun _ => .bind (.metered _) fun o => ?_)
    cases o with
    | some v => exact .pure v
    | none => exact hb sc.deeper bs h'
  case atLeast sc ha hb bs h =>
    obtain ⟨h, h'⟩ := SameOn.append_iff.1 h
    exact mirrors_node rfl (.bind (ha sc.deeper bs h) fun _ => .bind (.metered _) fun _ =>
      .bind (hb sc.deeper bs h') fun _ => .bind (.metered _) fun _ => .metered _)
  case ifThenElse sc ha hb hc bs h =>
    obtain ⟨h, h''⟩ := SameOn.append_iff.1 h
    obtain ⟨h, h'⟩ := SameOn.append_iff.1 h
    exact mirrors_node rfl (.bind (ha sc.deeper bs h) fun _ => .bind (.metered _) fun _ =>
      .ite (hb sc.deeper bs h') (hc sc.deeper bs h''))
  case slice sc ha hb hc bs h =>
    obtain ⟨h, h''⟩ := SameOn.append_iff.1 h
    obtain ⟨h, h'⟩ := SameOn.append_iff.1 h
    exact mirrors_node rfl (.bind (ha sc.deeper bs h) fun _ => .bind (.metered _) fun _ =>
      .bind (hb sc.deeper bs h') fun _ => .bind (.metered _) fun _ =>
      .bind (hc sc.deeper bs h'') fun _ => .bind (.metered _) fun _ => .metered _)
  case byIndex sc ha hb bs h =>
    obtain ⟨h, h'⟩ := SameOn.append_iff.1 h
    exact mirrors_node rfl (.bind (ha sc.deeper bs h) fun _ => .bind (.metered _) fun _ =>
      .bind (hb sc.deeper bs h') fun _ => .bind (.metered _) fun _ => .metered _)
  case byIndexOr sc ha hb hd bs h =>
    obtain ⟨h, h''⟩ := SameOn.append_iff.1 h
    obtain ⟨h, h'⟩ := SameOn.append_iff.1 h
    refine mirrors_node rfl (.bind (ha sc.deeper bs h) fun _ => .bind (.metered _) fun coll =>
      .bind (hb sc.deeper bs h') fun _ => .bind (.metered _) fun i => ?_)
    cases itemAt? coll i with
    | some v => exact .pure v
    | none => exact hd sc.deeper bs h''
  case loop op _ sig _ sc ha hbody bs h =>
    -- a body is run with its argument on top, which no name outside can reach
    obtain ⟨h, h'⟩ := SameOn.append_iff.1 h
    have hfunction (i : UInt32) (t : ValueType) (v : Value) (hargs : sig.args = [(i, t)]) :=
      hbody (sc.deeper.bind i v) ((i, v) :: bs) (h'.argument hargs v)
    exact mirrors_node rfl (.bind (ha sc.deeper bs h) fun _ => .bind (.metered _) fun coll =>
      op.mirrors_run hfunction coll)
  case fold _ _ sig _ sc ha hzero hbody bs h =>
    obtain ⟨h, h''⟩ := SameOn.append_iff.1 h
    obtain ⟨h, h'⟩ := SameOn.append_iff.1 h
    have hfunction (i : UInt32) (t : ValueType) (v : Value) (hargs : sig.args = [(i, t)]) :=
      hbody (sc.deeper.bind i v) ((i, v) :: bs) (h''.argument hargs v)
    exact mirrors_node rfl (.bind (ha sc.deeper bs h) fun _ => .bind (.metered _) fun coll =>
      .bind (hzero sc.deeper bs h') fun acc => .bind (.metered _) fun _ =>
      mirrors_foldItems hfunction acc coll.toList)
  case dhTuple sc hg hh hu hv bs h =>
    -- the names that are free below are those of the four points together
    obtain ⟨h, h₄⟩ := SameOn.append_iff.1 h
    obtain ⟨h, h₃⟩ := SameOn.append_iff.1 h
    obtain ⟨h₁, h₂⟩ := SameOn.append_iff.1 h
    exact mirrors_node rfl (.bind (hg sc.deeper bs h₁) fun _ => .bind (.metered _) fun _ =>
      .bind (hh sc.deeper bs h₂) fun _ => .bind (.metered _) fun _ =>
      .bind (hu sc.deeper bs h₃) fun _ => .bind (.metered _) fun _ =>
      .bind (hv sc.deeper bs h₄) fun _ => .bind (.metered _) fun _ => .pure _)
  case deserialize i t sc bs _ => 
    -- the only node that is run from another stack than that of its surroundings
    exact mirrors_node rfl (hscript sc.deeper bs i t)
  case defsNil bs used g x y h hx => exact hx [] h
  case defsCons i e ds sc he hds bs used g x y h hx =>
    obtain ⟨h, h'⟩ := SameOn.append_iff.1 h
    simp only [bind_assoc]
    refine .bind (he bs h) fun v => .update _ (hds v ((i, v) :: bs) used g x y (h'.define v) ?_)
    -- what the rest pushes comes on top of this definition
    intro new hnew
    have hrest := hx (new ++ [(i, v)])
    rw [List.append_assoc, List.append_assoc, List.singleton_append, List.singleton_append] at hrest
    exact hrest hnew
  case propsNil | allNil => exact .pure _
  case propsCons he hes bs h =>
    obtain ⟨h, h'⟩ := SameOn.append_iff.1 h
    exact .bind (he bs h) fun _ => .bind (.metered _) fun _ => .bind (hes bs h') fun _ => .pure _
  case allCons he hes bs h =>
    obtain ⟨h, h'⟩ := SameOn.append_iff.1 h
    exact .bind (he bs h) fun _ => .bind (hes bs h') fun _ => .pure _

/-! ## Scripts -/

/-- **Within a script**, where the flag is set, whatever would run a further script is not asked. -/
theorem Expr.mirrors_nested (exec : Expr → MachineM Value) {e : Expr} {sc : Scope}
    {bs : List (UInt32 × Value)} (h : SameOn e.free bs sc.bindings) :
    Mirrors ⟨sc.over bs, true⟩ ⟨sc.over bs, true⟩ (e.execWith (execScript exec))
      (e.evalNested sc) :=
  Expr.mirrors_execWith (fun _ _ _ _ => .frame (.refused _)) e sc bs h

/-- **A script starts with nothing on the stack**, and what was there is put back after it. -/
theorem mirrors_runScript (sc : Scope) (bs : List (UInt32 × Value)) (i : UInt8) (t : ValueType) :
    Mirrors ⟨sc.over bs, false⟩ ⟨sc.over bs, false⟩ (execScript Expr.execNested i t)
      (runScript sc i t) := by
  have hscript (e : Expr) : Mirrors ⟨sc.isolated.over [], true⟩ ⟨sc.isolated.over [], true⟩
      e.execNested (e.evalNested sc.isolated) := e.mirrors_nested _ fun _ _ => rfl
  exact .frame (.bind (.metered _) fun _ => .bind (.metered _) fun _ => .bind (.metered _) fun e =>
    .bind (.during rfl (hscript e)) fun v => .check (.pure v))

/-- What an expression evaluates to in a frame. -/
def Expr.evalIn (e : Expr) (f : Frame) : EvalM Value :=
  if f.nested then e.evalNested f.toScope else e.eval f.toScope

theorem Expr.mirrors_exec {e : Expr} {f : Frame} {bs : List (UInt32 × Value)}
    (h : SameOn e.free bs f.bindings) :
    Mirrors { f with bindings := bs } { f with bindings := bs } e.exec (e.evalIn f) := by
  obtain ⟨sc, n⟩ := f
  cases n with
  | true => exact e.mirrors_nested _ h
  | false => exact Expr.mirrors_execWith mirrors_runScript e sc bs h

/-- The constants around a script are none of its business. -/
theorem Expr.evalIn_deserialize (i : UInt8) (t : ValueType) (f : Frame) (cs : List Value) :
    (Expr.deserialize i t).evalIn { f with constants := cs } = (Expr.deserialize i t).evalIn f := by
  obtain ⟨sc, n⟩ := f
  cases n <;> rfl

/-- **Bindings are lexically scoped, and scripts see nothing of what is around them.**  Take two
frames that differ in their stacks only, and an expression whose free variables have the same
innermost bindings in both, or none.  Run with equal meters, it has the same outcome in both, leaves
the meter the same, and leaves each frame as it was if it succeeds: the stack, the table of
constants, the flag and the depth.  It is the outcome that the evaluator has in the scope of the
frame.  A node that runs a script has the same outcome whatever constants are around it. -/
theorem Expr.lexical_scoping :
    (∀ (e : Expr) (f : Frame) (bs : List (UInt32 × Value)) (m : Meter),
      (∀ i ∈ e.free, bs.lookup i = f.bindings.lookup i) →
      ∃ r m' g g', (e.evalIn f).run m = (r, m') ∧
        e.exec.run ⟨f, m⟩ = (r, ⟨g, m'⟩) ∧
        e.exec.run ⟨{ f with bindings := bs }, m⟩ = (r, ⟨g', m'⟩) ∧
        ∀ v, r = .ok v → g = f ∧ g' = { f with bindings := bs }) ∧
    ∀ (i : UInt8) (t : ValueType) (f : Frame) (cs : List Value) (m : Meter),
      ∃ r m' g g', (Expr.deserialize i t).exec.run ⟨f, m⟩ = (r, ⟨g, m'⟩) ∧
        (Expr.deserialize i t).exec.run ⟨{ f with constants := cs }, m⟩ = (r, ⟨g', m'⟩) := by
  constructor
  · intro e f bs m hfree
    -- both stacks mirror the same evaluation, which sees the names that are free and no others
    obtain ⟨g, hrun, hframe⟩ := e.mirrors_exec (f := f) (fun _ _ => rfl) m
    obtain ⟨g', hrun', hframe'⟩ := e.mirrors_exec hfree m
    exact ⟨_, _, g, g', rfl, hrun, hrun', fun v hv => ⟨hframe v hv, hframe' v hv⟩⟩
  · intro i t f cs m
    obtain ⟨g, hrun, -⟩ := (Expr.deserialize i t).mirrors_exec (f := f) (fun _ _ => rfl) m
    obtain ⟨g', hrun', -⟩ :=
      (Expr.deserialize i t).mirrors_exec (f := { f with constants := cs }) (fun _ _ => rfl) m
    -- a script is run without constants, whichever its surroundings have
    rw [evalIn_deserialize] at hrun'
    exact ⟨_, _, g, g', hrun, hrun'⟩

end

/-! ## A variable that is defined again -/

/-- A block that defines variable 1, compares it with variable 2, and runs a script. -/
def definesOne : Expr :=
  .block [(1, .placeholder 0)]
    (.binary .and (.binary (.compare .eq) (.use 1) (.use 2)) (.deserialize 1 .bool))

/-- A frame with variables 1 and 2 on its stack and one constant. -/
def oneAboveTwo : Frame := ⟨⟨countingContext, [.int 7], [(1, .int 3), (2, .int 7)], 1, 0⟩, false⟩

/-- Another stack with the same variable 2 on top. -/
def twoAboveOne : List (UInt32 × Value) := [(2, .int 7), (1, .bool true), (2, .int 0)]

/-- The block comes out true on both stacks at the same cost, whatever they have as variable 1, and
takes its own variable 1 off the stack; the script in it has a variable 1 of its own. -/
theorem Expr.lexical_scoping_definesOne :
    definesOne.free = [2] ∧
    (∀ i ∈ definesOne.free, twoAboveOne.lookup i = oneAboveTwo.bindings.lookup i) ∧
    ∃ v m' g g',
      definesOne.exec.run ⟨oneAboveTwo, .new 1000⟩ = (.ok v, ⟨g, m'⟩) ∧
      definesOne.exec.run ⟨{ oneAboveTwo with bindings := twoAboveOne }, .new 1000⟩ =
        (.ok v, ⟨g', m'⟩) ∧
      v.bool? = some true ∧ m'.spent = 231 ∧
      g.bindings = oneAboveTwo.bindings ∧ g'.bindings = twoAboveOne := by
  have hfree : definesOne.free = [2] := by decide
  have hsame : ∀ i ∈ definesOne.free,
      twoAboveOne.lookup i = oneAboveTwo.bindings.lookup i := by
    intro i hi
    rw [hfree] at hi
    obtain rfl := List.mem_singleton.1 hi
    rfl
  have htrue : (definesOne.exec.run ⟨oneAboveTwo, .new 1000⟩).1.toOption.bind Value.bool? =
      some true := by decide +kernel
  have hspent : (definesOne.exec.run ⟨oneAboveTwo, .new 1000⟩).2.meter.spent = 231 := by
    decide +kernel
  obtain ⟨r, m', g, g', -, hrun, hrun', hframes⟩ :=
    lexical_scoping.1 definesOne oneAboveTwo twoAboveOne (.new 1000) hsame
  rw [hrun] at htrue hspent
  cases r with
  | error e => cases htrue
  | ok v =>
    obtain ⟨rfl, rfl⟩ := hframes v rfl
    exact ⟨hfree, hsame, v, m', _, _, hrun, hrun', htrue, hspent, rfl, rfl⟩

end Covenant

/-
  MIRRORING — when a computation on a machine does what a computation in a scope does.

  `Mirrors f g x y` compares the two: started with the frame `f` and any meter, `x` has the outcome
  of `y` and leaves the meter that `y` leaves; and when it succeeds, its frame is `g`.  About the
  frame of a run that failed nothing is said.

  1. **Composition** — mirroring goes along a sequence, frame by frame, and through a change of the
     frame that is taken back (`Mirrors.during`).
  2. **Nodes and functions** — what counts the depth and what pushes an argument ends in the frame in
     which it started.  So do loops, item by item.
-/
import Covenant.Reduction.Machine
import Covenant.Proofs.Reduction.Metered

namespace Covenant

open MachineM

/-! ## Runs of a machine -/

namespace MachineM

variable {α β : Type}

theorem run_bind (x : MachineM α) (k : α → MachineM β) (s : Machine) :
    (x >>= k).run s = match x.run s with
      | (.ok a, s') => (k a).run s'
      | (.error e, s') => (.error e, s') := by
  show (match x.run s with | (r, s') => (ExceptT.bindCont k r) s') = _
  rcases x.run s with ⟨r, s'⟩
  cases r <;> rfl

@[simp] theorem run_frame (s : Machine) : frame.run s = (.ok s.frame, s) := rfl

@[simp] theorem run_update (g : Frame → Frame) (s : Machine) :
    (update g).run s = (.ok (), { s with frame := g s.frame }) := rfl

@[simp] theorem run_during (before after : Frame → Frame) (x : MachineM α) (s : Machine) :
    (during before after x).run s =
      match x.run { s with frame := before s.frame } with
      | (r, s') => (r, { s' with frame := after s'.frame }) := rfl

end MachineM

/-! ## Composition -/

/-- Started with the frame `f`, the first computation does to the meter what the second does, has
the same outcome, and ends with the frame `g` if it succeeds. -/
def Mirrors {α : Type} (f g : Frame) (x : MachineM α) (y : EvalM α) : Prop :=
  ∀ m, ∃ f', x.run ⟨f, m⟩ = ((y.run m).1, ⟨f', (y.run m).2⟩) ∧ ∀ a, (y.run m).1 = .ok a → f' = g

namespace Mirrors

variable {α β : Type} {f g h : Frame} {x : MachineM α} {y : EvalM α}

theorem pure (a : α) : Mirrors f f (Pure.pure a) (Pure.pure a) := fun _ => ⟨f, rfl, fun _ _ => rfl⟩

theorem metered (y : EvalM α) : Mirrors f f (metered y) y := fun _ => ⟨f, rfl, fun _ _ => rfl⟩

/-- A failure is mirrored whatever the frame should be. -/
theorem malformed (d : ConditionDefect) :
    Mirrors f g (MachineM.malformed d : MachineM α) (EvalM.malformed d) := by
  intro m
  refine ⟨f, rfl, fun a ha => ?_⟩
  cases ha

/-- What would come after a failure does not matter. -/
theorem refused {k : β → MachineM α} (d : ConditionDefect) :
    Mirrors f g (MachineM.malformed d >>= k) (EvalM.malformed d) := by
  intro m
  refine ⟨f, rfl, fun a ha => ?_⟩
  cases ha

/-- The second step starts with the frame that the first one ends with. -/
theorem bind {k : α → MachineM β} {l : α → EvalM β} (hx : Mirrors f g x y)
    (hk : ∀ a, Mirrors g h (k a) (l a)) : Mirrors f h (x >>= k) (y >>= l) := by
  intro m
  obtain ⟨f', hrun, hframe⟩ := hx m
  rcases hy : y.run m with ⟨r, m'⟩
  rw [hy] at hrun hframe
  rw [MachineM.run_bind, hrun, EvalM.run_bind, hy]
  -- only a success has to give the frame back, and only then does the rest run
  cases r with
  | ok a =>
    obtain rfl := hframe a rfl
    exact hk a m'
  | error e =>
    refine ⟨f', rfl, fun b hb => ?_⟩
    cases hb

/-- The frame is known when it is asked for. -/
theorem frame {k : Frame → MachineM α} (hk : Mirrors f g (k f) y) :
    Mirrors f g (MachineM.frame >>= k) y := by
  intro m
  rw [MachineM.run_bind, MachineM.run_frame]
  exact hk m

theorem update {k : Unit → MachineM α} (u : Frame → Frame) (hk : Mirrors (u f) g (k ()) y) :
    Mirrors f g (MachineM.update u >>= k) y := by
  intro m
  rw [MachineM.run_bind, MachineM.run_update]
  exact hk m

/-- **A change that is taken back.** -/
theorem during {before after : Frame → Frame} (hback : after g = h)
    (hx : Mirrors (before f) g x y) : Mirrors f h (MachineM.during before after x) y := by
  intro m
  obtain ⟨f', hrun, hframe⟩ := hx m
  refine ⟨after f', ?_, fun a ha => hframe a ha ▸ hback⟩
  rw [MachineM.run_during, hrun]

/-- A check in front of a computation. -/
theorem check {c : Prop} [Decidable c] {d : ConditionDefect} (hx : Mirrors f g x y) :
    Mirrors f g (if c then MachineM.malformed d >>= fun _ : PUnit => x else x)
      (if c then EvalM.malformed d >>= fun _ : PUnit => y else y) := by
  split
  · exact .bind (.malformed d) fun _ => hx
  · exact hx

theorem ite {c : Prop} [Decidable c] {x' : MachineM α} {y' : EvalM α} (hx : Mirrors f g x y)
    (hx' : Mirrors f g x' y') : Mirrors f g (if c then x else x') (if c then y else y') := by
  split
  · exact hx
  · exact hx'

end Mirrors

/-! ## Nodes -/

/-- **A node** ends where it started when what it runs does, one level down. -/
theorem mirrors_node {f : Frame} {sc : Scope} {op : Opcode} {x : MachineM Value}
    {node : Scope → EvalM Value} (hdepth : f.depth = sc.depth)
    (hnode : Mirrors f.descend f.descend x (node sc.deeper)) :
    Mirrors f f (execNode op x) (enter sc op node) := by
  unfold enter
  rw [← hdepth]
  exact .frame (.check (.during rfl (.bind (.metered _) fun _ => .bind (.metered _) fun _ =>
    .bind hnode fun v => .bind (.metered _) fun _ => .pure v)))

/-! ## Functions and loops -/

section Functions

variable {f : Frame} {sig : Signature} {body : MachineM Value} {body' : Scope → EvalM Value}
  {sc : Scope}
  (hbody : ∀ id t v, sig.args = [(id, t)] →
    Mirrors (f.push id v) (f.push id v) body (body' (sc.bind id v)))

include hbody

theorem mirrors_function (arg : Value) :
    Mirrors f f (execFunction sig body arg) (applyFunction sig body' sc arg) := by
  rcases sig with ⟨_ | ⟨⟨id, t⟩, _ | ⟨_, _⟩⟩, result⟩
  · exact .malformed _
  · exact .check (.bind (.metered _) fun _ => .bind (.during rfl (hbody id t arg rfl)) fun v =>
      .check (.pure v))
  · exact .malformed _

theorem mirrors_predicate (arg : Value) :
    Mirrors f f (execPredicate sig body arg) (applyPredicate sig body' sc arg) :=
  .bind (mirrors_function hbody arg) fun _ => .metered _

theorem mirrors_mapItems (vs : List Value) :
    Mirrors f f (vs.mapM (execFunction sig body)) (mapItems (applyFunction sig body' sc) vs) := by
  induction vs with
  | nil => exact .pure []
  | cons v vs ih =>
    rw [List.mapM_cons]
    exact .bind (mirrors_function hbody v) fun w => .bind ih fun ws => .pure (w :: ws)

/-- What is kept is collected newest first. -/
theorem mirrors_filterAux (kept vs : List Value) :
    Mirrors f f (vs.filterAuxM (execPredicate sig body) kept) (do
      let ws ← filterItems (applyPredicate sig body' sc) vs
      return ws.reverse ++ kept) := by
  induction vs generalizing kept with
  | nil => exact .pure kept
  | cons v vs ih =>
    simp only [filterItems, bind_assoc, pure_bind]
    refine .bind (mirrors_predicate hbody v) fun b => ?_
    -- the machine keeps what passed newest first, the evaluator puts it in front of the rest
    cases b with
    | true =>
      simp only [if_pos, List.reverse_cons, List.append_assoc, List.singleton_append]
      exact ih (v :: kept)
    | false => exact ih kept

theorem mirrors_filterItems (vs : List Value) :
    Mirrors f f (vs.filterM (execPredicate sig body))
      (filterItems (applyPredicate sig body' sc) vs) := by
  have hback : Mirrors f f (vs.filterM (execPredicate sig body)) (do
      let ws ← (do
        let ws ← filterItems (applyPredicate sig body' sc) vs
        return ws.reverse ++ [])
      return ws.reverse) := .bind (mirrors_filterAux hbody [] vs) fun ws => .pure ws.reverse
  simpa only [bind_assoc, pure_bind, List.append_nil, List.reverse_reverse, bind_pure] using hback

theorem mirrors_findItem (wanted : Bool) (c : Coll) :
    Mirrors f f (LoopOp.exec.find sig body c wanted)
      (findItem (applyPredicate sig body' sc) wanted c.toList) := by
  unfold LoopOp.exec.find
  induction c.toList with
  | nil => exact .pure false
  | cons v vs ih =>
    simp only [List.anyM_cons, bind_assoc, pure_bind]
    exact .bind (.metered _) fun _ => .bind (mirrors_predicate hbody v) fun b =>
      .ite (.pure true) ih

theorem mirrors_foldItems (acc : Value) (vs : List Value) :
    Mirrors f f (vs.foldlM (fun acc v => execFunction sig body (.pair acc v)) acc)
      (foldItems (applyFunction sig body' sc) acc vs) := by
  induction vs generalizing acc with
  | nil => exact .pure acc
  | cons v vs ih =>
    rw [List.foldlM_cons]
    exact .bind (mirrors_function hbody _) fun acc => ih acc

theorem LoopOp.mirrors_run (op : LoopOp) (c : Coll) :
    Mirrors f f (op.exec sig body c) (op.run sig body' sc c) := by
  cases op with
  | map =>
    exact .bind (.metered _) fun _ => .bind (mirrors_mapItems hbody _) fun _ => .metered _
  | filter =>
    exact .bind (.metered _) fun _ => .bind (mirrors_filterItems hbody _) fun _ => .pure _
  | «exists» | forAll => exact .bind (mirrors_findItem hbody _ c) fun _ => .pure _

end Functions

end Covenant

/-
  REAL MOVES — the trees that a prover with secrets ends up with.

  1. **Ready plans** — after polishing, every real leaf has a secret that opens its statement and
     every real node exactly as many real children as its connective requires
     (`Plan.ready_polish_mark`).
  2. **Answers** — responding to a challenge finishes each draft as itself: what is finished keeps
     its challenge, the rest gets the one it is asked for (`Draft.respondAll_iff`).
  3. **`commit_iff`** — the first moves of a ready plan, answered for a challenge, are exactly the
     accepting tree with this root challenge whose draws (`Plan.draws`) the supply yields.  A real
     leaf draws the nonce `z - e x` where a simulated one draws the answer `z`; a real node draws
     the challenges of the children it gives up where a simulated one draws its own sharing.
-/
import Covenant.Proof.Prover
import Covenant.Proofs.Protocol.Settling
import Covenant.Proofs.Protocol.Simulation

namespace Covenant

open Suite

variable [Suite]

/-! ## Ready plans -/

namespace Plan

mutual

/-- The plan can be followed: real leaves have secrets that open their statements in the given
sense, and real nodes have as many real children as their connective requires. -/
def Ready (opens : Scalar → Statement → Prop) : Plan → Prop
  | .leaf s x => ∃ secret, x = some secret ∧ opens secret s
  | .node c real ps => real = true ∧ ps.countP isReal = c.required ps.length ∧ ReadyAll opens ps

/-- The real ones of some plans can be followed. -/
def ReadyAll (opens : Scalar → Statement → Prop) : List Plan → Prop
  | [] => True
  | p :: ps => (p.isReal → p.Ready opens) ∧ ReadyAll opens ps

end

theorem isReal_polish (keep : Bool) (p : Plan) : (p.polish keep).isReal = (p.isReal && keep) := by
  cases p with
  | leaf s x => cases keep <;> simp [polish, isReal]
  | node c real ps => rfl

theorem length_polishAll (budget : Nat) (ps : List Plan) :
    (polishAll budget ps).length = ps.length := by
  induction ps generalizing budget with
  | nil => rfl
  | cons p ps ih => rw [polishAll]; split <;> simp [ih]

/-- Polishing keeps as many real plans as there are, up to the budget. -/
theorem countP_polishAll (budget : Nat) (ps : List Plan) :
    (polishAll budget ps).countP isReal = min budget (ps.countP isReal) := by
  induction ps generalizing budget with
  | nil => simp [polishAll]
  | cons p ps ih =>
    rw [polishAll]
    split
    · rename_i h
      obtain ⟨hreal, hbudget⟩ := Bool.and_eq_true_iff.1 h
      have hbudget : budget ≠ 0 := by simpa using hbudget
      simp only [List.countP_cons, isReal_polish, hreal, Bool.and_true, if_true, ih]
      omega
    · rename_i h
      -- the child is passed over: it was given up before, or nothing is left to spend
      have hor : p.isReal = false ∨ budget = 0 := by
        cases hreal : p.isReal <;> simp_all
      simp only [List.countP_cons, isReal_polish, Bool.and_false, Bool.false_eq_true, if_false, ih]
      rcases hor with hreal | rfl
      · simp [hreal]
      · simp

mutual

theorem proposition_polish (keep : Bool) : ∀ p : Plan,
    (p.polish keep).proposition = p.proposition
  | .leaf _ _ => rfl
  | .node c real ps => by
    rw [polish, proposition, proposition, propositionAll_polishAll]

theorem propositionAll_polishAll (budget : Nat) : ∀ ps : List Plan,
    propositionAll (polishAll budget ps) = propositionAll ps
  | [] => rfl
  | p :: ps => by
    rw [polishAll]
    split <;> rw [propositionAll, propositionAll, proposition_polish, propositionAll_polishAll]

end

mutual

/-- Marking a tree without settled values keeps its shape. -/
theorem proposition_mark (resolve : Statement → Option Scalar) : ∀ {p : Proposition},
    p.WellFormed → (mark resolve p).proposition = p
  | .leaf _, _ => rfl
  | .node c cs, h => by rw [mark, proposition, propositionAll_markAll resolve h.2]

theorem propositionAll_markAll (resolve : Statement → Option Scalar) :
    ∀ {cs : List Proposition}, Proposition.WellFormedAll cs →
      propositionAll (markAll resolve cs) = cs
  | [], _ => rfl
  | c :: cs, h => by
    rw [markAll, propositionAll, proposition_mark resolve h.1, propositionAll_markAll resolve h.2]

end

mutual

/-- **Ready plans**: polishing what was marked with sound secrets leaves a plan that can be
followed. -/
theorem ready_polish_mark {opens : Scalar → Statement → Prop}
    {resolve : Statement → Option Scalar} (hsound : ∀ s x, resolve s = some x → opens x s) :
    ∀ {p : Proposition}, (mark resolve p).isReal → ((mark resolve p).polish true).Ready opens
  | .trivial b, h => by
    cases b with
    | false => cases h
    | true => exact ⟨rfl, rfl, trivial⟩
  | .leaf s, h => by
    obtain ⟨x, hx⟩ := Option.isSome_iff_exists.1 h
    exact ⟨x, hx, hsound s x hx⟩
  | .node c cs, h => by
    -- polishing leaves exactly the required number of the real children, and they are ready in turn
    have hcount := of_decide_eq_true h
    have hreal : (mark resolve (.node c cs)).isReal = true := h
    rw [mark] at hreal ⊢
    simp only [isReal] at hreal
    simp only [polish, hreal, Bool.and_true, if_true]
    refine ⟨rfl, ?_, readyAll_polishAll_markAll hsound _⟩
    rw [countP_polishAll, length_polishAll, Nat.min_eq_left hcount]

theorem readyAll_polishAll_markAll {opens : Scalar → Statement → Prop}
    {resolve : Statement → Option Scalar} (hsound : ∀ s x, resolve s = some x → opens x s)
    (budget : Nat) : ∀ {cs : List Proposition},
    ReadyAll opens (polishAll budget (markAll resolve cs))
  | [] => trivial
  | c :: cs => by
    rw [markAll, polishAll]
    split
    · rename_i h
      exact ⟨fun _ => ready_polish_mark hsound (Bool.and_eq_true_iff.1 h).1,
        readyAll_polishAll_markAll hsound _⟩
    · refine ⟨fun h => ?_, readyAll_polishAll_markAll hsound _⟩
      rw [isReal_polish, Bool.and_false] at h
      cases h

end

end Plan

/-! ## Answers -/

namespace Draft

/-- Answering the challenge that a tree has finishes the draft as this tree. -/
def Finishes (d : Draft) (t : ProofTree) : Prop := d.respond t.challenge = .ok t

/-- A draft that is finished keeps its challenge; any other gets the one it is asked for. -/
theorem respond_iff {d : Draft} {e : Scalar} {t : ProofTree} :
    d.respond e = .ok t ↔ d.Finishes t ∧ t.challenge = d.challenge?.getD e := by
  -- what is still open takes the challenge it is given; only what was simulated has its own
  have hkeeps (heq : ∀ e t, d.respond e = .ok t → t.challenge = e) (hopen : d.challenge? = none) :
      d.respond e = .ok t ↔ d.Finishes t ∧ t.challenge = d.challenge?.getD e := by
    rw [hopen, Option.getD_none, Finishes]
    constructor
    · intro h
      have hchallenge := heq e t h
      exact ⟨hchallenge ▸ h, hchallenge⟩
    · rintro ⟨h, rfl⟩
      exact h
  cases d with
  | opened s x r a =>
    refine hkeeps (fun e t h => ?_) rfl
    cases h
    rfl
  | simulated t' =>
    simp only [respond, Except.ok.injEq, Finishes, challenge?, Option.getD_some]
    constructor
    · rintro rfl
      exact ⟨rfl, rfl⟩
    · exact And.left
  | node c ds =>
    refine hkeeps (fun e t h => ?_) rfl
    simp only [respond, Outcome.bind_eq_ok, Outcome.pure_eq, Except.ok.injEq, Prod.exists] at h
    obtain ⟨_, _, _, _, _, rfl⟩ := h
    rfl

/-- **Answers**: each of some drafts is finished as a tree with its own or its new challenge. -/
theorem respondAll_iff {ds : List Draft} {es : List Scalar} {ts : List ProofTree}
    (hlen : es.length = ds.length) : respondAll ds es = .ok ts ↔
      List.Forall₂ Finishes ds ts ∧ ts.map ProofTree.challenge = merge (chosen ds) es := by
  induction ds generalizing es ts with
  | nil => cases ts <;> simp [respondAll, chosen, merge]
  | cons d ds ih =>
    -- each draft gets a challenge, and one that was simulated keeps the one it has
    obtain ⟨e, es, rfl⟩ := List.exists_cons_of_length_eq_add_one hlen
    have hrest := fun ts => @ih es ts (Nat.succ.inj hlen)
    simp only [respondAll, Outcome.bind_eq_ok, Outcome.pure_eq, Except.ok.injEq, hrest,
      respond_iff, chosen, merge, List.map_cons, List.zipWith_cons_cons]
    constructor
    · rintro ⟨t, ⟨ht, hchallenge⟩, ts, ⟨hts, hchallenges⟩, rfl⟩
      exact ⟨.cons ht hts, by rw [List.map_cons, hchallenge, hchallenges]⟩
    · rintro ⟨hall, hchallenges⟩
      cases hall with
      | cons ht hts =>
        obtain ⟨hchallenge, hchallenges⟩ := List.cons.inj hchallenges
        exact ⟨_, ⟨ht, hchallenge⟩, _, ⟨hts, hchallenges⟩, rfl⟩

mutual

/-- Answering does not change a commitment. -/
theorem commitments_of_respond : ∀ {d : Draft} {e : Scalar} {t : ProofTree},
    d.respond e = .ok t → t.commitments = d.commitments
  | .opened _ _ _ _, _, _, h => by cases h; rfl
  | .simulated _, _, _, h => by cases h; rfl
  | .node _ ds, _, _, h => by
    simp only [respond, Outcome.bind_eq_ok, Outcome.pure_eq, Except.ok.injEq, Prod.exists] at h
    obtain ⟨_, _, _, _, hts, rfl⟩ := h
    exact commitments_of_respondAll hts

theorem commitments_of_respondAll : ∀ {ds : List Draft} {es : List Scalar}
    {ts : List ProofTree}, respondAll ds es = .ok ts →
      ProofTree.commitmentsAll ts = commitmentsAll ds
  | [], _, _, h => by cases h; rfl
  | d :: ds, e :: es, _, h => by
    simp only [respondAll, Outcome.bind_eq_ok, Outcome.pure_eq, Except.ok.injEq] at h
    obtain ⟨t, ht, ts, hts, rfl⟩ := h
    rw [ProofTree.commitmentsAll, commitmentsAll, commitments_of_respond ht,
      commitments_of_respondAll hts]

end

end Draft

/-! ## What a real subtree draws -/

namespace Plan

/-- The challenges of the children that are not real. -/
def givenUp : List Plan → List ProofTree → List Scalar
  | p :: ps, t :: ts => if p.isReal then givenUp ps ts else t.challenge :: givenUp ps ts
  | _, _ => []

mutual

/-- What the first moves of a real subtree draw for it to come out as this tree: challenges for the
children given up, then what each child draws; a nonce for a leaf. -/
def draws : Plan → ProofTree → List Scalar
  | .leaf _ x, .leaf _ e _ z => [z - e * x.getD 0]
  | .node _ _ ps, .node _ _ _ ts => givenUp ps ts ++ drawsAll ps ts
  | _, _ => []

/-- What some children draw: real ones for their first moves, others to be simulated. -/
def drawsAll : List Plan → List ProofTree → List Scalar
  | p :: ps, t :: ts => (if p.isReal then p.draws t else t.simulationDraws) ++ drawsAll ps ts
  | _, _ => []

end

/-- A challenge was chosen for exactly those that are not real. -/
def Chooses (ps : List Plan) (os : List (Option Scalar)) : Prop :=
  os.map Option.isNone = ps.map isReal

theorem Chooses.cons_iff {p : Plan} {ps : List Plan} {o : Option Scalar}
    {os : List (Option Scalar)} :
    Chooses (p :: ps) (o :: os) ↔ o.isNone = p.isReal ∧ Chooses ps os := by
  simp [Chooses]

theorem Chooses.length_eq {ps : List Plan} {os : List (Option Scalar)} (h : Chooses ps os) :
    os.length = ps.length := by
  rw [← List.length_map (f := Option.isNone), h, List.length_map]

theorem Chooses.countP_eq {ps : List Plan} {os : List (Option Scalar)} (h : Chooses ps os) :
    os.countP Option.isNone = ps.countP isReal := by
  have hcount {α : Type} (f : α → Bool) (xs : List α) : xs.countP f = (xs.map f).count true := by
    rw [List.count, List.countP_map]
    exact List.countP_congr fun x _ => by simp
  rw [hcount, hcount, h]

theorem givenUp_eq {ps : List Plan} {os : List (Option Scalar)} {ts : List ProofTree}
    (hos : Chooses ps os) (hagree : Agree os (ts.map ProofTree.challenge)) :
    givenUp ps ts = os.filterMap id := by
  induction ps generalizing os ts with
  | nil =>
    obtain rfl : os = [] := by simpa [Chooses] using hos
    rfl
  | cons p ps ih =>
    cases os with
    | nil => cases hos
    | cons o os =>
      cases ts with
      | nil => cases hagree
      | cons t ts =>
        obtain ⟨ho, hrest⟩ := Chooses.cons_iff.1 hos
        obtain ⟨hhead, htail⟩ := List.forall₂_cons.1 hagree
        have hgivenUp := ih hrest htail
        cases o with
        | none =>
          -- a real child has no preset challenge, and none is given up for it
          have hreal : p.isReal = true := ho.symm
          rw [givenUp, if_pos hreal, hgivenUp, List.filterMap_cons_none rfl]
        | some x =>
          -- a simulated child keeps the challenge it was given
          have hreal : ¬p.isReal = true := by rw [← ho]; simp
          rw [givenUp, if_neg hreal, hgivenUp, ← hhead x rfl]
          rfl

/-- The challenges of the trees for plans that are not real. -/
def choiceFor : List Plan → List ProofTree → List (Option Scalar)
  | p :: ps, t :: ts => (if p.isReal then none else some t.challenge) :: choiceFor ps ts
  | _, _ => []

theorem choiceFor_spec {ps : List Plan} {ts : List ProofTree} (hlen : ts.length = ps.length) :
    Chooses ps (choiceFor ps ts) ∧ Agree (choiceFor ps ts) (ts.map ProofTree.challenge) := by
  induction ps generalizing ts with
  | nil => simp [List.length_eq_zero_iff.1 hlen, choiceFor, Chooses, Agree]
  | cons p ps ih =>
    obtain ⟨t, ts, rfl⟩ := List.exists_cons_of_length_eq_add_one hlen
    obtain ⟨hchooses, hagree⟩ := ih (Nat.succ.inj hlen)
    cases hreal : p.isReal with
    | true =>
      simp only [choiceFor, hreal, if_true]
      exact ⟨Chooses.cons_iff.2 ⟨hreal.symm, hchooses⟩, .cons (by simp) hagree⟩
    | false =>
      simp only [choiceFor, hreal, Bool.false_eq_true, if_false]
      exact ⟨Chooses.cons_iff.2 ⟨hreal.symm, hchooses⟩, .cons (by simp) hagree⟩

end Plan

/-! ## First moves -/

section

variable {σ : Type} {next : σ → Scalar × σ}

theorem drawChallenges_iff {ps : List Plan} {s s' : σ} {os : List (Option Scalar)} :
    drawChallenges next ps s = (os, s') ↔
      Plan.Chooses ps os ∧ Supplies next s (os.filterMap id) s' := by
  induction ps generalizing s os with
  | nil =>
    simp only [drawChallenges, Prod.mk.injEq, Plan.Chooses, List.map_nil, List.map_eq_nil_iff]
    constructor
    · rintro ⟨rfl, rfl⟩
      exact ⟨rfl, supplies_nil.2 rfl⟩
    · rintro ⟨rfl, h⟩
      exact ⟨rfl, (supplies_nil.1 h).symm⟩
  | cons p ps ih =>
    cases hreal : p.isReal with
    | true =>
      -- a real child draws nothing
      simp only [drawChallenges, hreal, if_true, Prod.mk.injEq]
      constructor
      · rintro ⟨rfl, rfl⟩
        obtain ⟨hchooses, h⟩ := ih.1 (rfl : drawChallenges next ps s = _)
        exact ⟨Plan.Chooses.cons_iff.2 ⟨hreal.symm, hchooses⟩, h⟩
      · rintro ⟨hchooses, h⟩
        cases os with
        | nil => cases hchooses
        | cons o os =>
          obtain ⟨ho, hrest⟩ := Plan.Chooses.cons_iff.1 hchooses
          obtain rfl := Option.isNone_iff_eq_none.1 (ho.trans hreal)
          rw [ih.2 ⟨hrest, h⟩]
          exact ⟨rfl, rfl⟩
    | false =>
      -- any other child draws one challenge, ahead of those of its siblings
      simp only [drawChallenges, hreal, Bool.false_eq_true, if_false, Prod.mk.injEq]
      constructor
      · rintro ⟨rfl, rfl⟩
        obtain ⟨hchooses, h⟩ := ih.1 (rfl : drawChallenges next ps (next s).2 = _)
        exact ⟨Plan.Chooses.cons_iff.2 ⟨hreal.symm, hchooses⟩, supplies_cons.2 ⟨_, rfl, h⟩⟩
      · rintro ⟨hchooses, h⟩
        cases os with
        | nil => cases hchooses
        | cons o os =>
          obtain ⟨ho, hrest⟩ := Plan.Chooses.cons_iff.1 hchooses
          cases o with
          | none => rw [hreal] at ho; cases ho
          | some x =>
            obtain ⟨m, hx, h⟩ := supplies_cons.1 h
            rw [hx, ih.2 ⟨hrest, h⟩]
            exact ⟨rfl, rfl⟩

/-- A conjunction that has all its children chooses nothing, which is what drawing for each child
that is not real comes to. -/
theorem presetChallenges_eq {c : Connective} {ps : List Plan} {s : σ}
    (h : ps.countP Plan.isReal = c.required ps.length) :
    presetChallenges next c ps s = drawChallenges next ps s := by
  cases c with
  | any | atLeast k => rfl
  | all =>
    refine (drawChallenges_iff.2 ⟨?_, ?_⟩).symm
    · rw [Plan.Chooses, List.map_map]
      exact List.map_congr_left fun p hp => (List.countP_eq_length.1 h p hp).symm
    · have hnone : (ps.map fun _ => (none : Option Scalar)).filterMap id = [] := by
        simp [List.filterMap_map]
      rw [hnone]
      exact supplies_nil.2 rfl

variable (next) in
/-- The first move for one child, for which its parent chose a challenge if it is not real. -/
def firstMove (p : Plan) (o : Option Scalar) (s : σ) : Except ProverError (Draft × σ) :=
  if p.isReal then commit next p s
  else
    match o with
    | none => .error (.malformedTree .simulatedWithoutChallenge)
    | some e => (simulate next p e s).map fun x => (.simulated x.1, x.2)

theorem commitAll_cons (p : Plan) (ps : List Plan) (o : Option Scalar) (os : List (Option Scalar))
    (s : σ) : commitAll next (p :: ps) (o :: os) s =
      firstMove next p o s >>= fun x => commitAll next ps os x.2 >>= fun y =>
        pure (x.1 :: y.1, y.2) := by
  unfold firstMove
  cases o with
  | none =>
    rw [commitAll]
    · cases p.isReal <;> rfl
    · simp
  | some e =>
    rw [commitAll]
    cases p.isReal with
    | true => rfl
    | false =>
      simp only [Bool.false_eq_true, if_false]
      cases simulate next p e s <;> rfl

/-- A child is committed to when it is real and simulated when a challenge was chosen for it. -/
theorem firstMove_eq_ok {p : Plan} {o : Option Scalar} {s m : σ} {d : Draft}
    (ho : o.isNone = p.isReal) : firstMove next p o s = .ok (d, m) ↔
      (o = none ∧ p.isReal = true ∧ commit next p s = .ok (d, m)) ∨
      ∃ e t, o = some e ∧ p.isReal = false ∧ simulate next p e s = .ok (t, m) ∧
        d = .simulated t := by
  cases o with
  | none =>
    have hreal : p.isReal = true := ho.symm
    simp [firstMove, hreal]
  | some e =>
    have hreal : p.isReal = false := ho.symm
    simp only [firstMove, hreal, Bool.false_eq_true, if_false, Outcome.map_eq_ok, Prod.mk.injEq,
      Prod.exists]
    grind

theorem commitAll_eq_ok {p : Plan} {ps : List Plan} {o : Option Scalar}
    {os : List (Option Scalar)} {s s' : σ} {ds : List Draft} :
    commitAll next (p :: ps) (o :: os) s = .ok (ds, s') ↔ ∃ d m ds', firstMove next p o s =
      .ok (d, m) ∧ commitAll next ps os m = .ok (ds', s') ∧ ds = d :: ds' := by
  simp only [commitAll_cons, Outcome.bind_eq_ok, Outcome.pure_eq, Except.ok.injEq, Prod.mk.injEq,
    Prod.exists]
  grind

/-- A real subtree is left open. -/
theorem challenge?_of_commit {p : Plan} {s s' : σ} {d : Draft}
    (h : commit next p s = .ok (d, s')) : d.challenge? = none := by
  cases p with
  | leaf st x =>
    cases x with
    | none => cases h
    | some x =>
      -- only what is real is committed to, and that stays open
      simp only [commit, Outcome.bind_eq_ok, Outcome.pure_eq, Except.ok.injEq, Prod.mk.injEq] at h
      obtain ⟨_, _, rfl, _⟩ := h
      rfl
  | node c real qs =>
    cases real with
    | false => cases h
    | true =>
      rw [commit] at h
      obtain ⟨_, _, h⟩ := Outcome.bind_eq_ok.1 h
      cases h
      rfl

/-- First moves leave each child with the challenge that was chosen for it, if any. -/
theorem chosen_of_commitAll [Lawful] {ps : List Plan} {os : List (Option Scalar)} {s s' : σ}
    {ds : List Draft} (hp : Proposition.WellFormedAll (Plan.propositionAll ps))
    (hos : Plan.Chooses ps os) (h : commitAll next ps os s = .ok (ds, s')) :
    Draft.chosen ds = os := by
  induction ps generalizing os s ds with
  | nil =>
    cases h
    exact (List.map_eq_nil_iff.1 hos).symm
  | cons p ps ih =>
    cases os with
    | nil => cases hos
    | cons o os =>
      obtain ⟨ho, hrest⟩ := Plan.Chooses.cons_iff.1 hos
      obtain ⟨d, m, ds, hd, hds, rfl⟩ := commitAll_eq_ok.1 h
      have hchosen := ih hp.2 hrest hds
      rw [Draft.chosen] at hchosen ⊢
      rw [List.map_cons, hchosen]
      -- a first move fixes a challenge when it simulates, and then the preset one
      rcases (firstMove_eq_ok ho).1 hd with ⟨rfl, -, hd⟩ | ⟨e, t, rfl, -, ht, rfl⟩
      · rw [challenge?_of_commit hd]
      · rw [← ((simulate_iff hp.1).1 ht).1]
        rfl

theorem length_of_commitAll [Lawful] {ps : List Plan} {os : List (Option Scalar)} {s s' : σ}
    {ds : List Draft} (hp : Proposition.WellFormedAll (Plan.propositionAll ps))
    (hos : Plan.Chooses ps os) (h : commitAll next ps os s = .ok (ds, s')) :
    ds.length = ps.length := by
  rw [← Draft.length_chosen, chosen_of_commitAll hp hos h, hos.length_eq]

mutual

/-- **Real moves**: the first moves of a ready plan, answered for a challenge, are exactly the
accepting tree with this root challenge that belongs to the scalars drawn. -/
theorem commit_iff [Lawful] : ∀ {p : Plan} {e : Scalar} {s s' : σ} {t : ProofTree},
    p.Ready Statement.opens → p.proposition.WellFormed →
      ((∃ d, commit next p s = .ok (d, s') ∧ d.respond e = .ok t) ↔
      t.challenge = e ∧ t.Accepting p.proposition ∧ Supplies next s (p.draws t) s')
  | .leaf st x, e, s, s', t, hready, _ => by
    obtain ⟨x, rfl, hopens⟩ := hready
    simp only [commit, Outcome.bind_eq_ok, Outcome.pure_eq, Except.ok.injEq, Prod.mk.injEq,
      Plan.proposition, ProofTree.accepting_leaf, Statement.accepts_iff_simulate?]
    constructor
    · -- the nonce is the answer less the challenge's share of the secret
      rintro ⟨d, ⟨a, ha, rfl, rfl⟩, ht⟩
      cases ht
      refine ⟨rfl, ⟨_, _, _, rfl, (Statement.commit?_eq_ok_iff hopens).1 ha⟩,
        supplies_singleton.2 ?_⟩
      rw [Option.getD_some, add_sub_cancel_right]
    · rintro ⟨rfl, ⟨e, a, z, rfl, ha⟩, h⟩
      have hnext := supplies_singleton.1 h
      rw [Option.getD_some] at hnext
      refine ⟨_, ⟨a, ?_, rfl, ?_⟩, ?_⟩
      · rw [hnext, Statement.commit?_eq_ok_iff hopens, sub_add_cancel]
        exact ha
      · rw [hnext]
      · rw [hnext, Draft.respond, ProofTree.challenge, sub_add_cancel]
  | .node c real ps, e, s, s', t, ⟨hreal, hcount, hready⟩, hp => by
    have hallows : c.Allows ps.length := by simpa using hp.1
    simp only [commit, hreal, Bool.not_true, Bool.false_eq_true, if_false, Outcome.bind_eq_ok,
      Outcome.pure_eq, Except.ok.injEq, Prod.mk.injEq, Prod.exists, Plan.proposition,
      ProofTree.accepting_node, presetChallenges_eq hcount]
    constructor
    · rintro ⟨d, ⟨ds, _, hds, rfl, rfl⟩, ht⟩
      obtain ⟨hchooses, hdraws⟩ := drawChallenges_iff.1
        (rfl : drawChallenges next ps s = _)
      have hchosen := chosen_of_commitAll hp.2 hchooses hds
      have hlen := length_of_commitAll hp.2 hchooses hds
      simp only [Draft.respond, Outcome.bind_eq_ok, Outcome.pure_eq, Except.ok.injEq,
        Prod.exists] at ht
      obtain ⟨settled, fs, hsettled, ts, hts, rfl⟩ := ht
      -- forwards: drawing, then the children's first moves, then the settlement of the challenges
      obtain ⟨hfinishes, hchallenges⟩ :=
        (Draft.respondAll_iff (Draft.length_of_settle hsettled)).1 hts
      obtain ⟨hshares, hagree⟩ := (Draft.settle_iff (hlen ▸ hallows)
        (by rw [hchosen, hchooses.countP_eq, hcount, hlen])).1 ⟨settled, hsettled, hchallenges⟩
      obtain ⟨haccepting, hagree', hdraws'⟩ :=
        (commitAll_iff hready hp.2 hchooses).1 ⟨ds, hds, hfinishes⟩
      refine ⟨rfl, ⟨e, fs, ts, rfl, hshares, haccepting⟩, ?_⟩
      rw [Plan.draws, Plan.givenUp_eq hchooses hagree']
      exact supplies_append.2 ⟨_, hdraws, hdraws'⟩
    · rintro ⟨rfl, ⟨e, fs, ts, rfl, hshares, haccepting⟩, h⟩
      -- backwards: the draws are read off the tree, and each step is found again from them
      have htslen : ts.length = ps.length := by
        rw [haccepting.length_eq, Plan.length_propositionAll]
      obtain ⟨hchooses, hagree⟩ := Plan.choiceFor_spec htslen
      rw [Plan.draws, Plan.givenUp_eq hchooses hagree] at h
      obtain ⟨m, hdraws, hdraws'⟩ := supplies_append.1 h
      rw [drawChallenges_iff.2 ⟨hchooses, hdraws⟩]
      obtain ⟨ds, hds, hfinishes⟩ :=
        (commitAll_iff hready hp.2 hchooses).2 ⟨haccepting, hagree, hdraws'⟩
      have hchosen := chosen_of_commitAll hp.2 hchooses hds
      have hlen : ds.length = ps.length := hfinishes.length_eq.trans htslen
      obtain ⟨settled, hsettled, hchallenges⟩ := (Draft.settle_iff (hlen ▸ hallows)
        (by rw [hchosen, hchooses.countP_eq, hcount, hlen])).2 ⟨hshares, hchosen ▸ hagree⟩
      refine ⟨_, ⟨ds, _, hds, rfl, rfl⟩, ?_⟩
      simp only [Draft.respond, ProofTree.challenge, hsettled, Outcome.ok_bind,
        (Draft.respondAll_iff (Draft.length_of_settle hsettled)).2 ⟨hfinishes, hchallenges⟩]
      rfl

theorem commitAll_iff [Lawful] : ∀ {ps : List Plan} {os : List (Option Scalar)} {s s' : σ}
    {ts : List ProofTree}, Plan.ReadyAll Statement.opens ps →
      Proposition.WellFormedAll (Plan.propositionAll ps) → Plan.Chooses ps os →
      ((∃ ds, commitAll next ps os s = .ok (ds, s') ∧ List.Forall₂ Draft.Finishes ds ts) ↔
        ProofTree.AcceptingAll (Plan.propositionAll ps) ts ∧
        Agree os (ts.map ProofTree.challenge) ∧ Supplies next s (Plan.drawsAll ps ts) s')
  | [], os, s, s', ts, _, _, hos => by
    obtain rfl : os = [] := by simpa [Plan.Chooses] using hos
    simp only [commitAll, Except.ok.injEq, Prod.mk.injEq, Plan.propositionAll]
    constructor
    · rintro ⟨ds, ⟨rfl, rfl⟩, hfinishes⟩
      cases hfinishes
      exact ⟨trivial, .nil, supplies_nil.2 rfl⟩
    · rintro ⟨haccepting, hagree, h⟩
      cases ts with
      | nil => exact ⟨[], ⟨rfl, (supplies_nil.1 h).symm⟩, .nil⟩
      | cons t ts => cases haccepting
  | p :: ps, o :: os, s, s', ts, hready, hp, hos => by
    obtain ⟨ho, hrest⟩ := Plan.Chooses.cons_iff.1 hos
    simp only [commitAll_eq_ok, firstMove_eq_ok ho, Plan.propositionAll]
    constructor
    · rintro ⟨_, ⟨d, m, ds, hd, hds, rfl⟩, hfinishes⟩
      cases hfinishes with
      | @cons _ t _ ts ht hts =>
        obtain ⟨haccepting, hagree, hdraws⟩ :=
          (commitAll_iff hready.2 hp.2 hrest).1 ⟨ds, hds, hts⟩
        rw [Plan.drawsAll]
        -- by induction for a real child, by the simulator's own description for another
        rcases hd with ⟨rfl, hreal, hd⟩ | ⟨e, t', rfl, hreal, ht', rfl⟩
        · obtain ⟨-, hchild, hdraws'⟩ := (commit_iff (hready.1 hreal) hp.1).1 ⟨d, hd, ht⟩
          rw [if_pos hreal]
          exact ⟨⟨hchild, haccepting⟩, .cons (by simp) hagree,
            supplies_append.2 ⟨m, hdraws', hdraws⟩⟩
        · obtain rfl : t' = t := Except.ok.inj ht
          obtain ⟨rfl, hchild, hdraws'⟩ := (simulate_iff hp.1).1 ht'
          rw [if_neg (by simp [hreal])]
          exact ⟨⟨hchild, haccepting⟩, .cons (by simp) hagree,
            supplies_append.2 ⟨m, hdraws', hdraws⟩⟩
    · rintro ⟨haccepting, hagree, h⟩
      cases ts with
      | nil => cases haccepting
      | cons t ts =>
        obtain ⟨hhead, htail⟩ := List.forall₂_cons.1 hagree
        rw [Plan.drawsAll] at h
        obtain ⟨m, hdraws, hdraws'⟩ := supplies_append.1 h
        -- the siblings are built from what the first child leaves of the supply
        obtain ⟨ds, hds, hts⟩ :=
          (commitAll_iff hready.2 hp.2 hrest).2 ⟨haccepting.2, htail, hdraws'⟩
        cases o with
        | none =>
          have hreal : p.isReal = true := ho.symm
          rw [if_pos hreal] at hdraws
          obtain ⟨d, hd, ht⟩ := (commit_iff (hready.1 hreal) hp.1).2 ⟨rfl, haccepting.1, hdraws⟩
          exact ⟨_, ⟨d, m, ds, .inl ⟨rfl, hreal, hd⟩, hds, rfl⟩, .cons ht hts⟩
        | some e =>
          have hreal : p.isReal = false := ho.symm
          rw [if_neg (by simp [hreal])] at hdraws
          obtain rfl := hhead e rfl
          have ht := (simulate_iff hp.1).2 ⟨rfl, haccepting.1, hdraws⟩
          exact ⟨_, ⟨.simulated t, m, ds, .inr ⟨_, t, rfl, hreal, ht, rfl⟩, hds, rfl⟩,
            .cons rfl hts⟩

end

/-! ## Real moves succeed -/

mutual

/-- A ready plan can be followed when all points decode, and answered for any challenge. -/
theorem exists_commit [Lawful] (next : σ → Scalar × σ) : ∀ (p : Plan) (s : σ),
    p.Ready Statement.opens → p.proposition.WellFormed → (∀ st ∈ p.proposition.leaves, st.Decodes) →
      ∃ d s', commit next p s = .ok (d, s') ∧ ∀ e, ∃ t, d.respond e = .ok t
  | .leaf st x, s, ⟨x', hx, _⟩, _, hdecodes => by
    obtain ⟨a, ha⟩ := Statement.exists_commit? (hdecodes st List.mem_cons_self) (next s).1
    subst hx
    exact ⟨_, _, by simp only [commit, ha, Outcome.ok_bind]; rfl, fun e => ⟨_, rfl⟩⟩
  | .node c real ps, s, ⟨hreal, hcount, hready⟩, hp, hdecodes => by
    obtain ⟨hchooses, -⟩ := drawChallenges_iff.1 (rfl : drawChallenges next ps s = _)
    obtain ⟨ds, s', hds, hresponds⟩ := exists_commitAll next ps _ (drawChallenges next ps s).2
      hready hp.2 hdecodes hchooses
    -- as many children are open as the node requires, which is what settling needs
    have hchosen := chosen_of_commitAll hp.2 hchooses hds
    have hlen := length_of_commitAll hp.2 hchooses hds
    have hallows : c.Allows ds.length := by
      rw [hlen]
      simpa using hp.1
    refine ⟨.node c ds, s', ?_, fun e => ?_⟩
    · simp only [commit, hreal, Bool.not_true, Bool.false_eq_true, if_false,
        presetChallenges_eq hcount, hds, Outcome.ok_bind]
      rfl
    · obtain ⟨es, fs, hsettle⟩ := Draft.exists_settle e hallows
        (by rw [hchosen, hchooses.countP_eq, hcount, hlen])
      obtain ⟨ts, hts⟩ := hresponds es (Draft.length_of_settle hsettle)
      exact ⟨_, by simp only [Draft.respond, hsettle, hts, Outcome.ok_bind]; rfl⟩

theorem exists_commitAll [Lawful] (next : σ → Scalar × σ) : ∀ (ps : List Plan)
    (os : List (Option Scalar)) (s : σ), Plan.ReadyAll Statement.opens ps →
      Proposition.WellFormedAll (Plan.propositionAll ps) →
      (∀ st ∈ Proposition.leavesAll (Plan.propositionAll ps), st.Decodes) → Plan.Chooses ps os →
      ∃ ds s', commitAll next ps os s = .ok (ds, s') ∧
        ∀ es : List Scalar, es.length = ds.length → ∃ ts, Draft.respondAll ds es = .ok ts
  | [], _, s, _, _, _, _ => ⟨[], s, rfl, fun _ _ => ⟨[], rfl⟩⟩
  | p :: ps, o :: os, s, hready, hp, hdecodes, hos => by
    obtain ⟨ho, hrest⟩ := Plan.Chooses.cons_iff.1 hos
    simp only [Plan.propositionAll, Proposition.leavesAll, List.forall_mem_append] at hdecodes
    -- the first child alone, real or not
    have hfirst : ∃ d m, firstMove next p o s = .ok (d, m) ∧ ∀ e, ∃ t, d.respond e = .ok t := by
      simp only [firstMove_eq_ok ho]
      cases o with
      | none =>
        have hreal : p.isReal = true := ho.symm
        obtain ⟨d, m, hd, hresponds⟩ := exists_commit next p s (hready.1 hreal) hp.1 hdecodes.1
        exact ⟨d, m, .inl ⟨rfl, hreal, hd⟩, hresponds⟩
      | some e =>
        have hreal : p.isReal = false := ho.symm
        obtain ⟨t, m, ht⟩ := exists_simulate next p e s hp.1 hdecodes.1
        exact ⟨.simulated t, m, .inr ⟨e, t, rfl, hreal, ht, rfl⟩, fun e => ⟨t, rfl⟩⟩
    obtain ⟨d, m, hd, hresponds⟩ := hfirst
    obtain ⟨ds, s', hds, hresponds'⟩ :=
      exists_commitAll next ps os m hready.2 hp.2 hdecodes.2 hrest
    refine ⟨d :: ds, s', commitAll_eq_ok.2 ⟨d, m, ds, hd, hds, rfl⟩, fun es hlen => ?_⟩
    obtain ⟨e, es, rfl⟩ := List.exists_cons_of_length_eq_add_one hlen
    obtain ⟨t, ht⟩ := hresponds e
    obtain ⟨ts, hts⟩ := hresponds' es (by simpa using hlen)
    exact ⟨_, by simp only [Draft.respondAll, ht, hts, Outcome.ok_bind]; rfl⟩

end

end

end Covenant

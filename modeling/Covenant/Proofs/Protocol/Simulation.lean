/-
  SIMULATION — which trees a supply of scalars leads to without any secret.

  The moves of the prover take scalars from a supply, one after the other, and the supply may be
  anything with a function that yields the next one.

  1. **Supplies** — `Supplies next s xs s'` says that drawing `xs.length` times from `s` yields `xs`
     and leaves `s'`.  It splits along concatenation, so the draws of a tree can be described node
     by node.
  2. **Sharing at random** — the challenges that a simulated node draws are shared by its rule, and
     every way to share them comes from one series of draws (`shareChallenge_iff`).
  3. **`simulate_iff`** — simulation for a challenge returns exactly the accepting tree with this
     root challenge whose draws (`ProofTree.simulationDraws`) the supply yields.
-/
import Covenant.Proofs.Protocol.Accepting

namespace Covenant

open Suite

variable [Suite]

/-! ## Supplies of scalars -/

section Supplies

variable {σ : Type} (next : σ → Scalar × σ)

/-- Drawing from `s` as often as there are scalars in `xs` yields these, in order, and leaves
`s'`. -/
def Supplies (s : σ) (xs : List Scalar) (s' : σ) : Prop :=
  Polynomial.randomWithConstant.draw next xs.length s = (xs, s')

theorem length_draw (n : Nat) (s : σ) :
    (Polynomial.randomWithConstant.draw next n s).1.length = n := by
  induction n generalizing s with
  | zero => rfl
  | succ n ih => simp [Polynomial.randomWithConstant.draw, ih]

variable {next}

theorem draw_eq_iff {n : Nat} {s s' : σ} {xs : List Scalar} :
    Polynomial.randomWithConstant.draw next n s = (xs, s') ↔
      xs.length = n ∧ Supplies next s xs s' := by
  constructor
  · intro h
    have hlen : xs.length = n := by rw [← length_draw next n s, h]
    exact ⟨hlen, by rwa [Supplies, hlen]⟩
  · rintro ⟨rfl, h⟩
    exact h

theorem supplies_nil {s s' : σ} : Supplies next s [] s' ↔ s' = s := by
  simp [Supplies, Polynomial.randomWithConstant.draw, eq_comm]

theorem supplies_cons {s s' : σ} {x : Scalar} {xs : List Scalar} :
    Supplies next s (x :: xs) s' ↔ ∃ m, next s = (x, m) ∧ Supplies next m xs s' := by
  simp only [Supplies, List.length_cons, Polynomial.randomWithConstant.draw, Prod.mk.injEq,
    List.cons.injEq]
  constructor
  · rintro ⟨⟨rfl, hxs⟩, rfl⟩
    exact ⟨_, rfl, Prod.ext hxs rfl⟩
  · rintro ⟨m, hx, hxs⟩
    simp [hx, hxs]

theorem supplies_append {s s' : σ} {xs ys : List Scalar} :
    Supplies next s (xs ++ ys) s' ↔ ∃ m, Supplies next s xs m ∧ Supplies next m ys s' := by
  induction xs generalizing s with
  | nil => simp [supplies_nil]
  | cons x xs ih =>
    simp only [List.cons_append, supplies_cons, ih]
    grind

theorem supplies_singleton {s s' : σ} {x : Scalar} :
    Supplies next s [x] s' ↔ next s = (x, s') := by
  simp [supplies_cons, supplies_nil]

/-- The supply after some draws is the one after as many single draws. -/
theorem Supplies.state_eq {s s' : σ} {xs : List Scalar} (h : Supplies next s xs s') :
    s' = (fun s => (next s).2)^[xs.length] s := by
  induction xs generalizing s with
  | nil => exact supplies_nil.1 h
  | cons x xs ih =>
    obtain ⟨m, hx, hxs⟩ := supplies_cons.1 h
    rw [List.length_cons, Function.iterate_succ_apply, ih hxs, hx]

end Supplies

/-! ## The shape of a plan -/

namespace Plan

mutual

/-- The proposition that a plan is for. -/
def proposition : Plan → Proposition
  | .leaf s _ => .leaf s
  | .node c _ ps => .node c (propositionAll ps)

/-- The propositions that some plans are for. -/
def propositionAll : List Plan → List Proposition
  | [] => []
  | p :: ps => p.proposition :: propositionAll ps

end

@[simp] theorem length_propositionAll (ps : List Plan) :
    (propositionAll ps).length = ps.length := by
  induction ps with
  | nil => rfl
  | cons p ps ih => simp [propositionAll, ih]

end Plan

/-! ## Sharing a chosen challenge -/

/-- What a simulated node draws for itself, given what it ended up with: all challenges but the last
for a disjunction, the coefficients for a threshold node. -/
def Connective.chosen (c : Connective) (fs es : List Scalar) : List Scalar :=
  match c with
  | .all => []
  | .any => es.dropLast
  | .atLeast _ => fs

section

variable [Lawful] {σ : Type} {next : σ → Scalar × σ}

theorem splitChallenge_iff {n : Nat} {e : Scalar} {s s' : σ} {es : List Scalar} :
    splitChallenge next (n + 1) e s = (es, s') ↔
      es.length = n + 1 ∧ Suite.sum es = e ∧ Supplies next s es.dropLast s' := by
  induction n generalizing e s es with
  | zero =>
    simp only [splitChallenge, Prod.mk.injEq, Nat.zero_add, List.length_eq_one_iff]
    constructor
    · rintro ⟨rfl, rfl⟩
      exact ⟨⟨e, rfl⟩, by simp [sum_eq], supplies_nil.2 rfl⟩
    · rintro ⟨⟨x, rfl⟩, hsum, h⟩
      -- the last summand is not drawn, it is what is left
      rw [sum_eq, List.sum_singleton] at hsum
      exact ⟨by rw [hsum], (supplies_nil.1 h).symm⟩
  | succ n ih =>
    simp only [splitChallenge, Prod.mk.injEq]
    constructor
    · rintro ⟨rfl, rfl⟩
      obtain ⟨hlen, hsum, h⟩ := ih.1 (Prod.mk.eta (p := splitChallenge next (n + 1)
        (e - (next s).1) (next s).2)).symm
      refine ⟨by simp [hlen], ?_, ?_⟩
      · rw [sum_eq] at hsum ⊢
        rw [List.sum_cons, hsum, add_sub_cancel]
      · rw [List.dropLast_cons_of_ne_nil (List.ne_nil_of_length_eq_add_one hlen)]
        exact supplies_cons.2 ⟨_, rfl, h⟩
    · rintro ⟨hlen, hsum, h⟩
      obtain ⟨x, es, rfl⟩ := List.exists_cons_of_length_eq_add_one hlen
      have hlen : es.length = n + 1 := by simpa using hlen
      rw [List.dropLast_cons_of_ne_nil (List.ne_nil_of_length_eq_add_one hlen)] at h
      -- every other summand is the next draw
      obtain ⟨m, hx, h⟩ := supplies_cons.1 h
      have hsum : Suite.sum es = e - x := by
        rw [sum_eq, List.sum_cons] at hsum
        rw [sum_eq, ← hsum, add_sub_cancel_left]
      rw [hx, ih.2 ⟨hlen, hsum, h⟩]
      exact ⟨rfl, rfl⟩

/-- **Sharing at random**: a simulated node shares its challenge by the rule, and every way to share
it comes from one series of draws. -/
theorem shareChallenge_iff {c : Connective} {n : Nat} (hpos : 0 < n) {e : Scalar} {s s' : σ}
    {es fs : List Scalar} : shareChallenge next c n e s = (es, fs, s') ↔
      es.length = n ∧ c.SharesTo e fs es ∧ Supplies next s (c.chosen fs es) s' := by
  cases c with
  | all =>
    simp only [shareChallenge, Prod.mk.injEq, Connective.SharesTo, Connective.chosen,
      supplies_nil]
    constructor
    · rintro ⟨rfl, rfl, rfl⟩
      exact ⟨List.length_replicate, ⟨rfl, fun x hx => List.eq_of_mem_replicate hx⟩, rfl⟩
    · rintro ⟨hlen, ⟨rfl, hall⟩, rfl⟩
      exact ⟨(List.eq_replicate_iff.2 ⟨hlen, hall⟩).symm, rfl, rfl⟩
  | any =>
    -- splitting needs a last child, and there is one
    obtain ⟨n, rfl⟩ := Nat.exists_eq_succ_of_ne_zero hpos.ne'
    have hiff : splitChallenge next (n + 1) e s = (es, s') ↔ _ := splitChallenge_iff
    simp only [shareChallenge, Connective.SharesTo, Connective.chosen, Prod.mk.injEq] at hiff ⊢
    constructor
    · rintro ⟨rfl, rfl, rfl⟩
      obtain ⟨hlen, hsum, h⟩ := hiff.1 rfl
      exact ⟨hlen, ⟨rfl, hsum⟩, h⟩
    · rintro ⟨hlen, ⟨rfl, hsum⟩, h⟩
      rw [hiff.2 ⟨hlen, hsum, h⟩]
      exact ⟨rfl, rfl, rfl⟩
  | atLeast k =>
    -- here the coefficients are drawn, and the challenges follow from them
    simp only [shareChallenge, Polynomial.randomWithConstant, Prod.mk.injEq, List.tail_cons,
      Connective.SharesTo, Connective.chosen]
    constructor
    · rintro ⟨rfl, rfl, rfl⟩
      obtain ⟨hlen, h⟩ := draw_eq_iff.1
        (Prod.mk.eta (p := Polynomial.randomWithConstant.draw next
          ((Connective.atLeast k).shareDegree n) s)).symm
      exact ⟨by simp, ⟨by simpa using hlen, by simp [Polynomial.withConstant]⟩, h⟩
    · rintro ⟨rfl, ⟨hlen, hes⟩, h⟩
      rw [draw_eq_iff.2 ⟨hlen, h⟩]
      exact ⟨hes.symm, rfl, rfl⟩

end

/-! ## Simulating a subtree -/

namespace ProofTree

mutual

/-- What simulating a subtree draws for it to come out as this tree: each node before its children,
and an answer for each leaf. -/
def simulationDraws : ProofTree → List Scalar
  | .leaf _ _ _ z => [z]
  | .node c _ fs ts => c.chosen fs (ts.map challenge) ++ simulationDrawsAll ts

/-- What simulating some subtrees draws. -/
def simulationDrawsAll : List ProofTree → List Scalar
  | [] => []
  | t :: ts => t.simulationDraws ++ simulationDrawsAll ts

end

end ProofTree

section

variable {σ : Type} {next : σ → Scalar × σ}

mutual

/-- **Simulation** returns exactly the accepting tree with the chosen root challenge that belongs to
the scalars drawn. -/
theorem simulate_iff [Lawful] : ∀ {p : Plan} {e : Scalar} {s s' : σ} {t : ProofTree},
    p.proposition.WellFormed → (simulate next p e s = .ok (t, s') ↔
      t.challenge = e ∧ t.Accepting p.proposition ∧ Supplies next s t.simulationDraws s')
  | .leaf st x, e, s, s', t, _ => by
    simp only [simulate, Outcome.bind_eq_ok, Outcome.pure_eq, Except.ok.injEq, Prod.mk.injEq,
      Plan.proposition, ProofTree.accepting_leaf, Statement.accepts_iff_simulate?]
    constructor
    · rintro ⟨a, ha, rfl, rfl⟩
      exact ⟨rfl, ⟨_, _, _, rfl, ha⟩, supplies_singleton.2 rfl⟩
    · rintro ⟨rfl, ⟨e, a, z, rfl, ha⟩, h⟩
      rw [supplies_singleton.1 h]
      exact ⟨a, ha, rfl, rfl⟩
  | .node c real ps, e, s, s', t, hp => by
    have hpos : 0 < ps.length := by simpa using hp.1.pos
    simp only [simulate, Outcome.bind_eq_ok, Outcome.pure_eq, Except.ok.injEq, Prod.mk.injEq,
      Prod.exists, Plan.proposition, ProofTree.accepting_node]
    constructor
    · rintro ⟨ts, s'', hts, rfl, rfl⟩
      -- the node's own draws come first, then those of its children
      obtain ⟨hlen, hshares, hdraws⟩ := (shareChallenge_iff hpos).1
        (rfl : shareChallenge next c ps.length e s = _)
      obtain ⟨hchallenges, haccepting, hdraws'⟩ := (simulateAll_iff hp.2 hlen).1 hts
      rw [← hchallenges] at hshares hdraws
      exact ⟨rfl, ⟨_, _, ts, rfl, hshares, haccepting⟩, supplies_append.2 ⟨_, hdraws, hdraws'⟩⟩
    · rintro ⟨rfl, ⟨e, fs, ts, rfl, hshares, haccepting⟩, h⟩
      obtain ⟨m, hdraws, hdraws'⟩ := supplies_append.1 h
      have hlen : (ts.map ProofTree.challenge).length = ps.length := by
        rw [List.length_map, haccepting.length_eq, Plan.length_propositionAll]
      have hshare := (shareChallenge_iff hpos).2 ⟨hlen, hshares, hdraws⟩
      simp only [ProofTree.challenge, hshare]
      exact ⟨ts, s', (simulateAll_iff hp.2 hlen).2 ⟨rfl, haccepting, hdraws'⟩, rfl, rfl⟩

theorem simulateAll_iff [Lawful] : ∀ {ps : List Plan} {es : List Scalar} {s s' : σ}
    {ts : List ProofTree},
    Proposition.WellFormedAll (Plan.propositionAll ps) → es.length = ps.length →
      (simulateAll next ps es s = .ok (ts, s') ↔ ts.map ProofTree.challenge = es ∧
        ProofTree.AcceptingAll (Plan.propositionAll ps) ts ∧
        Supplies next s (ProofTree.simulationDrawsAll ts) s')
  | [], [], s, s', ts, _, _ => by
    simp only [simulateAll, Except.ok.injEq, Prod.mk.injEq, Plan.propositionAll]
    constructor
    · rintro ⟨rfl, rfl⟩
      exact ⟨rfl, trivial, supplies_nil.2 rfl⟩
    · rintro ⟨hnil, -, h⟩
      obtain rfl := List.map_eq_nil_iff.1 hnil
      exact ⟨rfl, (supplies_nil.1 h).symm⟩
  | p :: ps, e :: es, s, s', ts, hp, hlen => by
    have hrest : es.length = ps.length := Nat.succ.inj hlen
    simp only [simulateAll, Outcome.bind_eq_ok, Outcome.pure_eq, Except.ok.injEq, Prod.mk.injEq,
      Prod.exists, Plan.propositionAll]
    constructor
    · rintro ⟨t, m, ht, ts, m', hts, rfl, rfl⟩
      -- siblings draw one after the other
      obtain ⟨rfl, haccepting, hdraws⟩ := (simulate_iff hp.1).1 ht
      obtain ⟨rfl, haccepting', hdraws'⟩ := (simulateAll_iff hp.2 hrest).1 hts
      exact ⟨rfl, ⟨haccepting, haccepting'⟩, supplies_append.2 ⟨m, hdraws, hdraws'⟩⟩
    · rintro ⟨hchallenges, haccepting, h⟩
      cases ts with
      | nil => cases haccepting
      | cons t ts =>
        obtain ⟨m, hdraws, hdraws'⟩ := supplies_append.1 h
        obtain ⟨rfl, rfl⟩ := List.cons.inj hchallenges
        exact ⟨t, m, (simulate_iff hp.1).2 ⟨rfl, haccepting.1, hdraws⟩, ts, s',
          (simulateAll_iff hp.2 hrest).2 ⟨rfl, haccepting.2, hdraws'⟩, rfl, rfl⟩

end

end

/-! ## Simulation succeeds -/

section

variable {σ : Type} (next : σ → Scalar × σ)

theorem length_splitChallenge (n : Nat) (e : Scalar) (s : σ) :
    (splitChallenge next n e s).1.length = n := by
  induction n generalizing e s with
  | zero => rfl
  | succ n ih =>
    cases n with
    | zero => rfl
    | succ n => simp [splitChallenge, ih]

/-- A simulated node gives every child a challenge. -/
theorem length_shareChallenge (c : Connective) (n : Nat) (e : Scalar) (s : σ) :
    (shareChallenge next c n e s).1.length = n := by
  cases c with
  | all => exact List.length_replicate
  | any => exact length_splitChallenge next n e s
  | atLeast k => simp [shareChallenge]

mutual

/-- Without secrets nothing can fail but a point that does not decode. -/
theorem exists_simulate [Lawful] : ∀ (p : Plan) (e : Scalar) (s : σ), p.proposition.WellFormed →
    (∀ st ∈ p.proposition.leaves, st.Decodes) → ∃ t s', simulate next p e s = .ok (t, s')
  | .leaf st x, e, s, _, hdecodes => by
    obtain ⟨a, ha⟩ := Statement.exists_simulate? (hdecodes st List.mem_cons_self) e (next s).1
    exact ⟨_, _, by simp only [simulate, ha, Outcome.ok_bind]; rfl⟩
  | .node c real ps, e, s, hp, hdecodes => by
    obtain ⟨ts, s', hts⟩ := exists_simulateAll ps _ (shareChallenge next c ps.length e s).2.2 hp.2
      hdecodes (length_shareChallenge next c ps.length e s)
    exact ⟨_, _, by simp only [simulate, hts, Outcome.ok_bind]; rfl⟩

theorem exists_simulateAll [Lawful] : ∀ (ps : List Plan) (es : List Scalar) (s : σ),
    Proposition.WellFormedAll (Plan.propositionAll ps) →
      (∀ st ∈ Proposition.leavesAll (Plan.propositionAll ps), st.Decodes) →
      es.length = ps.length → ∃ ts s', simulateAll next ps es s = .ok (ts, s')
  | [], _, s, _, _, _ => ⟨[], s, rfl⟩
  | p :: ps, e :: es, s, hp, hdecodes, hlen => by
    simp only [Plan.propositionAll, Proposition.leavesAll, List.forall_mem_append] at hdecodes
    obtain ⟨t, m, ht⟩ := exists_simulate p e s hp.1 hdecodes.1
    obtain ⟨ts, s', hts⟩ := exists_simulateAll ps es m hp.2 hdecodes.2 (by simpa using hlen)
    exact ⟨_, _, by simp only [simulateAll, ht, hts, Outcome.ok_bind]; rfl⟩

end

end

end Covenant

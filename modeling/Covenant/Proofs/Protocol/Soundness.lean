/-
  SOUNDNESS — two accepting trees with the same commitments give the secrets away.

  1. **Filled sketches** — what a proof of the proposition's shape holds (`Sketch.Fills`); every
     sketch that is read for the proposition is one (`fills_of_decoder`).  When `propagate`
     completes a filled sketch and the leaves' equations hold, the tree is accepting
     (`accepting_of_propagate`).
  2. **Descent** — in two accepting trees with different root challenges, as many children as a node
     requires have different challenges, so the leaves with different challenges satisfy the
     proposition (`satisfiedFrom_differing`).
  3. **Opening** — where the commitments are the same, each of these leaves yields a secret that
     opens its statement (`opens_of_differing`).  Both together are `Sketch.special_soundness`.
-/
import Covenant.Proofs.Protocol.Accepting
import Covenant.Proofs.Suite.Residues

namespace Covenant

open Suite

namespace Sketch

variable [Suite]

/-! ## Filled sketches -/

mutual

/-- The sketch has the shape of the proposition and each threshold node as many coefficients as
share its challenge.  Challenges may be present or absent anywhere. -/
def Fills : Proposition → Sketch → Prop
  | .leaf s, .leaf s' _ _ _ => s' = s
  | .node c cs, .node c' _ fs ts => c' = c ∧
      fs.length = (match c with | .atLeast _ => c.shareDegree cs.length | _ => 0) ∧
      FillsAll cs ts
  | _, _ => False

/-- Sketches that fill one proposition each. -/
def FillsAll : List Proposition → List Sketch → Prop
  | [], [] => True
  | c :: cs, t :: ts => Fills c t ∧ FillsAll cs ts
  | _, _ => False

end

theorem FillsAll.length_eq : ∀ {cs : List Proposition} {ts : List Sketch},
    FillsAll cs ts → ts.length = cs.length
  | [], [], _ => rfl
  | _ :: _, _ :: _, h => congrArg (· + 1) (length_eq h.2)

/-! ## Filling in challenges -/

/-- Disjuncts get challenges that sum to their parent's. -/
theorem sum_of_disjunctChallenges [Lawful] {e : Scalar} {ts : List Sketch} {es : List Scalar}
    (h : disjunctChallenges e ts = .ok es) :
    es.length = ts.length ∧ (ts ≠ [] → Suite.sum es = e) := by
  induction ts generalizing e es with
  | nil => cases h; exact ⟨rfl, fun h => absurd rfl h⟩
  | cons t ts ih =>
    cases ts with
    | nil => cases h; exact ⟨rfl, fun _ => by simp [sum_eq]⟩
    | cons u us =>
      simp only [disjunctChallenges] at h
      split at h
      · cases h
      · rename_i e' _
        obtain ⟨es', hes', hes⟩ := Outcome.bind_eq_ok.1 h
        cases hes
        -- the others sum to what this challenge leaves of their parent's
        obtain ⟨hlen, hsum⟩ := ih hes'
        refine ⟨by simp [hlen], fun _ => ?_⟩
        rw [sum_eq] at hsum ⊢
        rw [List.sum_cons, hsum (by simp), add_sub_cancel]

/-- The challenges that children get are shared by the rules. -/
theorem sharesTo_of_childChallenges [Lawful] {c : Connective} {e : Scalar}
    {fs es : List Scalar} {ts : List Sketch} (hpos : 0 < ts.length)
    (hfs : fs.length = match c with | .atLeast _ => c.shareDegree ts.length | _ => 0)
    (h : childChallenges c e fs ts = .ok es) : es.length = ts.length ∧ c.SharesTo e fs es := by
  cases c with
  | all =>
    cases h
    exact ⟨by simp, List.length_eq_zero_iff.1 hfs, by simp⟩
  | any =>
    obtain ⟨hlen, hsum⟩ := sum_of_disjunctChallenges h
    exact ⟨hlen, List.length_eq_zero_iff.1 hfs, hsum (List.ne_nil_of_length_pos hpos)⟩
  | atLeast k =>
    cases h
    refine ⟨by simp, ?_, ?_⟩
    · simpa using hfs
    · simp [Polynomial.withConstant]

mutual

/-- Filling in a filled sketch gives an accepting tree with its commitments, as soon as the leaves'
equations hold. -/
theorem accepting_of_propagate [Lawful] : ∀ {p : Proposition} {k : Sketch} {e : Scalar}
    {t : ProofTree}, p.WellFormed → k.Fills p → k.propagate e = .ok t → t.EquationsHold →
      t.Accepting p ∧ t.challenge = e ∧ t.commitments = k.commitments
  | .leaf s, .leaf s' _ a z, e, t, _, hk, ht, hall => by
    obtain rfl : s' = s := hk
    cases ht
    exact ⟨⟨rfl, ProofTree.equationsHold_leaf.1 hall⟩, rfl, rfl⟩
  | .node c cs, .node c' _ fs ks, e, t, hp, hk, ht, hall => by
    obtain ⟨rfl, hfs, hks⟩ := hk
    simp only [propagate, Outcome.bind_eq_ok, Outcome.pure_eq, Except.ok.injEq] at ht
    obtain ⟨es, hes, ts, hts, rfl⟩ := ht
    rw [← hks.length_eq] at hfs
    -- a disjunction without children would share nothing
    have hpos : 0 < ks.length := hks.length_eq ▸ hp.1.pos
    obtain ⟨hlen, hshares⟩ := sharesTo_of_childChallenges hpos hfs hes
    obtain ⟨haccepting, hchallenges, hcommitments⟩ :=
      acceptingAll_of_propagateAll hp.2 hks hlen hts (ProofTree.equationsHold_node.1 hall)
    exact ⟨⟨rfl, hchallenges ▸ hshares, haccepting⟩, rfl, hcommitments⟩

theorem acceptingAll_of_propagateAll [Lawful] : ∀ {cs : List Proposition} {ks : List Sketch}
    {es : List Scalar} {ts : List ProofTree}, Proposition.WellFormedAll cs → FillsAll cs ks →
      es.length = ks.length → propagateAll ks es = .ok ts → (∀ t ∈ ts, t.EquationsHold) →
      ProofTree.AcceptingAll cs ts ∧ ts.map ProofTree.challenge = es ∧
        ProofTree.commitmentsAll ts = commitmentsAll ks
  | [], [], [], ts, _, _, _, ht, _ => by
    cases ht
    exact ⟨trivial, rfl, rfl⟩
  | c :: cs, k :: ks, e :: es, ts, hp, hk, hlen, ht, hall => by
    simp only [propagateAll, Outcome.bind_eq_ok, Outcome.pure_eq, Except.ok.injEq] at ht
    obtain ⟨t, ht, ts, hts, rfl⟩ := ht
    obtain ⟨hfirst, hrest⟩ := List.forall_mem_cons.1 hall
    obtain ⟨haccepting, rfl, hcommitments⟩ := accepting_of_propagate hp.1 hk.1 ht hfirst
    obtain ⟨haccepting', rfl, hcommitments'⟩ :=
      acceptingAll_of_propagateAll hp.2 hk.2 (Nat.succ.inj hlen) hts hrest
    exact ⟨⟨haccepting, haccepting'⟩, rfl, congrArg₂ _ hcommitments hcommitments'⟩

end

end Sketch

/-! ## Descent -/

namespace ProofTree

variable [Suite]

/-- The challenges of the leaves at position `i` of two lists of runs differ. -/
def differ (rs rs' : List LeafRun) (i : Nat) : Bool :=
  decide (rs[i]?.map LeafRun.challenge ≠ rs'[i]?.map LeafRun.challenge)

theorem differ_middle {before before' : List LeafRun} (hlen : before'.length = before.length)
    (after after' : List LeafRun) {r r' : LeafRun} (hne : r.challenge ≠ r'.challenge) :
    differ (before ++ [r] ++ after) (before' ++ [r'] ++ after') before.length = true := by
  have hr : (before ++ [r] ++ after)[before.length]? = some r := by simp
  have hr' : (before' ++ [r'] ++ after')[before.length]? = some r' := by simp [← hlen]
  rw [differ, hr, hr']
  simpa using hne

mutual

/-- **Descent**: where two accepting trees with the same commitments have different challenges, the
leaves below with different challenges satisfy the proposition.  The runs of the two trees stand
at the same place in the lists of all runs. -/
theorem satisfiedFrom_differing [Lawful] : ∀ {p : Proposition} {t t' : ProofTree}
    (before before' after after' : List LeafRun), before'.length = before.length →
      p.WellFormed → t.Accepting p → t'.Accepting p → t.challenge ≠ t'.challenge →
      p.satisfiedFrom (fun i _ => differ (before ++ t.runs ++ after)
        (before' ++ t'.runs ++ after') i) before.length = true
  | .leaf _, .leaf _ _ _ _, .leaf _ _ _ _, _, _, after, after', hlen, _, _, _, hne =>
    differ_middle hlen after after' hne
  | .node c cs, .node _ e fs ts, .node _ e' fs' ts', before, before', after, after', hlen, hp,
      ⟨hc, hshares, h⟩, ⟨hc', hshares', h'⟩, hne => by
    subst hc hc'
    have hts : (ts.map challenge).length = cs.length := by rw [List.length_map, h.length_eq]
    have hts' : (ts'.map challenge).length = cs.length := by rw [List.length_map, h'.length_eq]
    have hrequired := hshares.required_le_differing (hts ▸ hp.1) (hts'.trans hts.symm) hshares' hne
    have hcount := countFrom_differing before before' after after' hlen hp.2 h h'
    rw [hts] at hrequired
    exact decide_eq_true (hrequired.trans hcount)

theorem countFrom_differing [Lawful] : ∀ {cs : List Proposition} {ts ts' : List ProofTree}
    (before before' after after' : List LeafRun), before'.length = before.length →
      Proposition.WellFormedAll cs → AcceptingAll cs ts → AcceptingAll cs ts' →
      (((ts.map challenge).zip (ts'.map challenge)).countP fun x => x.1 ≠ x.2) ≤
        Proposition.countFrom (fun i _ => differ (before ++ runsAll ts ++ after)
          (before' ++ runsAll ts' ++ after') i) before.length cs
  | [], [], [], _, _, _, _, _, _, _, _ => Nat.le_refl _
  | c :: cs, t :: ts, t' :: ts', before, before', after, after', hlen, hp, h, h' => by
    -- the runs of the first child stand in front of its siblings' in either list
    have hfirst := satisfiedFrom_differing before before' (runsAll ts ++ after)
      (runsAll ts' ++ after') hlen hp.1 h.1 h'.1
    have hlen' : (before' ++ t'.runs).length = (before ++ t.runs).length := by
      simp [hlen, length_runs h.1, length_runs h'.1]
    have hrest := countFrom_differing (before ++ t.runs) (before' ++ t'.runs) after after' hlen'
      hp.2 h.2 h'.2
    simp only [List.length_append, length_runs h.1, List.append_assoc] at hfirst hrest
    rw [List.map_cons, List.map_cons, List.zip_cons_cons, List.countP_cons, Proposition.countFrom]
    simp only [runsAll, List.append_assoc]
    -- only a child with two challenges is counted, and it is satisfied by what is below it
    by_cases hne : t.challenge = t'.challenge
    · rw [if_neg (by simp [hne])]
      exact hrest.trans (Nat.le_add_left ..)
    · rw [hfirst hne, if_pos (by simp [hne]), Nat.add_comm]
      exact Nat.add_le_add_left hrest 1

end

/-! ## Opening -/

/-- **Opening**: a leaf with one commitment and two challenges in two accepting trees yields a
secret. -/
theorem opens_of_differing [Lawful] {p : Proposition} {t t' : ProofTree} (h : t.Accepting p)
    (h' : t'.Accepting p) (hcommitments : t.commitments = t'.commitments) {i : Nat}
    {r r' : LeafRun} (hr : t.runs[i]? = some r) (hr' : t'.runs[i]? = some r')
    (hne : r.challenge ≠ r'.challenge) : p.leaves[i]? = some r.statement ∧ r.statement.opens
      ((r.response - r'.response) * inverse (r.challenge - r'.challenge)) := by
  have hstatement : p.leaves[i]? = some r.statement := by
    rw [← map_statement_runs h, List.getElem?_map, hr, Option.map_some]
  have hstatement' : p.leaves[i]? = some r'.statement := by
    rw [← map_statement_runs h', List.getElem?_map, hr', Option.map_some]
  have hsame : r'.statement = r.statement :=
    Option.some.inj (hstatement'.symm.trans hstatement)
  -- the commitments at this leaf are the same
  have hcommitment : r'.commitment = r.commitment := by
    rw [← map_commitment_runs, ← map_commitment_runs] at hcommitments
    have hplace := congrArg (·[i]?) hcommitments.symm
    simpa [hr, hr'] using hplace
  have haccepts := accepts_of_mem_runs h r (List.mem_of_getElem? hr)
  have haccepts' := accepts_of_mem_runs h' r' (List.mem_of_getElem? hr')
  rw [hsame, hcommitment] at haccepts'
  exact ⟨hstatement, Statement.opens_of_accepts hne haccepts haccepts'⟩

end ProofTree

namespace Sketch

/-- **Special soundness.**  Take two filled sketches of a valid proposition with the same
commitments and complete them for different root challenges.  When the equations of all leaves
hold in both trees, the leaves whose challenges differ satisfy the proposition, and each of them
yields a secret that opens its statement. -/
theorem special_soundness [Suite] [Lawful] (p : Proposition) (hp : p.NonTrivial)
    (hvalid : p.validate = .ok ()) {k k' : Sketch} (hk : k.Fills p) (hk' : k'.Fills p)
    (hcommitments : k.commitments = k'.commitments) {e e' : Scalar} (hne : e ≠ e')
    {t t' : ProofTree} (ht : k.propagate e = .ok t) (ht' : k'.propagate e' = .ok t')
    (hall : t.EquationsHold) (hall' : t'.EquationsHold) :
    p.satisfiedFrom (fun i _ => ProofTree.differ t.runs t'.runs i) 0 = true ∧
    ∀ (i : Nat) (r r' : ProofTree.LeafRun), t.runs[i]? = some r → t'.runs[i]? = some r' →
      r.challenge ≠ r'.challenge → p.leaves[i]? = some r.statement ∧ r.statement.opens
        ((r.response - r'.response) * inverse (r.challenge - r'.challenge)) := by
  have hwell := ((Proposition.validate_eq_ok hp).1 hvalid).1
  obtain ⟨h, rfl, hcommit⟩ := accepting_of_propagate hwell hk ht hall
  obtain ⟨h', rfl, hcommit'⟩ := accepting_of_propagate hwell hk' ht' hall'
  refine ⟨?_, fun i r r' hr hr' hdiffer => ?_⟩
  · simpa using ProofTree.satisfiedFrom_differing [] [] [] [] rfl hwell h h' hne
  · have hcommits : t.commitments = t'.commitments := by rw [hcommit, hcommit', hcommitments]
    exact ProofTree.opens_of_differing h h' hcommits hr hr' hdiffer

section

attribute [local instance] Suite.residues Suite.lawful_residues

/-- Knowledge of two of three logarithms. -/
def twoOfLogs : Proposition :=
  .node (.atLeast 2) [.dlog (multiple 2), .dlog (multiple 3), .dlog (multiple 5)]

/-- A proof of it, from a coefficient and three answers to one series of commitments. -/
def twoOfLogsSketch (f z₁ z₂ z₃ : Nat) : Sketch :=
  .node (.atLeast 2) none [ofNat f]
    [.leaf (.dlog (multiple 2)) none (.dlog (multiple 1)) (ofNat z₁),
      .leaf (.dlog (multiple 3)) none (.dlog (multiple 4)) (ofNat z₂),
      .leaf (.dlog (multiple 5)) none (.dlog (multiple 6)) (ofNat z₃)]

/-- Two completions in which only the second and the third leaf have different challenges: the
third, whose challenges are 10 and 8, gives its secret away. -/
theorem special_soundness_twoOfLogs :
    (twoOfLogsSketch 1 17 31 56).commitments = (twoOfLogsSketch 0 17 28 46).commitments ∧
    ∃ t t', (twoOfLogsSketch 1 17 31 56).propagate (ofNat 7) = .ok t ∧
      (twoOfLogsSketch 0 17 28 46).propagate (ofNat 8) = .ok t' ∧
      twoOfLogs.satisfiedFrom (fun i _ => ProofTree.differ t.runs t'.runs i) 0 = true ∧
      (Statement.dlog (multiple 5)).opens
        ((ofNat 56 - ofNat 46) * inverse (ofNat 10 - ofNat 8)) := by
  have hfills (f z₁ z₂ z₃ : Nat) : (twoOfLogsSketch f z₁ z₂ z₃).Fills twoOfLogs :=
    ⟨rfl, rfl, rfl, rfl, rfl, trivial⟩
  obtain ⟨hsatisfied, hopens⟩ := special_soundness twoOfLogs rfl rfl (hfills 1 17 31 56)
    (hfills 0 17 28 46) rfl (by decide : (ofNat 7 : Scalar) ≠ ofNat 8) rfl rfl
    ⟨_, rfl, by decide⟩ ⟨_, rfl, by decide⟩
  exact ⟨rfl, _, _, rfl, rfl, hsatisfied, (hopens 2 _ _ rfl rfl (by decide)).2⟩

end

end Sketch

end Covenant

/-
  HIDING — a transcript does not tell which secrets were held.

  1. **How many scalars are drawn** — one for each leaf, and for each node as many as it has free
     choices (`Connective.freedom`).  Real and simulated subtrees draw different things but equally
     many (`length_draws`).
  2. **Tapes** — a list of scalars is a supply; drawing as often as the list is long yields the list
     (`supplies_tape`).
  3. **`perfect_hiding`** — for a fixed root challenge, each accepting tree is what exactly one tape
     leads to, whoever holds whichever secrets that satisfy the proposition.  Since the draws of a
     run can be read off the finished tree (`commit_iff`), nothing but counting is left to do.
-/
import Covenant.Proofs.Protocol.Completeness
import Mathlib.Data.Set.Function

namespace Covenant

open Suite

/-! ## How many scalars are drawn -/

/-- How many of its `n` children's challenges a node may choose, given its own. -/
def Connective.freedom (c : Connective) (n : Nat) : Nat :=
  match c with
  | .all => 0
  | .any => n - 1
  | .atLeast k => n - k

theorem Connective.freedom_eq (c : Connective) (n : Nat) : c.freedom n = n - c.required n := by
  cases c with
  | all => exact (Nat.sub_self n).symm
  | any | atLeast => rfl

namespace Proposition

mutual

/-- The free choices of all nodes together. -/
def choices : Proposition → Nat
  | .trivial _ => 0
  | .leaf _ => 0
  | .node c cs => c.freedom cs.length + choicesAll cs

/-- The free choices in some subtrees. -/
def choicesAll : List Proposition → Nat
  | [] => 0
  | c :: cs => c.choices + choicesAll cs

end

/-- How many scalars a transcript is made from: one for each leaf and one for each choice. -/
def scalarCount (p : Proposition) : Nat := p.leaves.length + p.choices

theorem scalarCount_node (c : Connective) (cs : List Proposition) :
    (node c cs).scalarCount = c.freedom cs.length + (cs.map scalarCount).sum := by
  have hall : (leavesAll cs).length + choicesAll cs = (cs.map scalarCount).sum := by
    induction cs with
    | nil => rfl
    | cons c cs ih =>
      rw [List.map_cons, List.sum_cons, ← ih, scalarCount, leavesAll, choicesAll,
        List.length_append]
      omega
  rw [← hall, scalarCount, leaves, choices]
  omega

end Proposition

section

variable [Suite]

mutual

/-- A simulated subtree draws one scalar for each leaf and each choice. -/
theorem ProofTree.length_simulationDraws : ∀ {p : Proposition} {t : ProofTree}, p.WellFormed →
    t.Accepting p → t.simulationDraws.length = p.scalarCount
  | .leaf _, .leaf _ _ _ _, _, _ => rfl
  | .node _ cs, .node c e fs ts, hp, ⟨hc, hshares, hts⟩ => by
    subst hc
    have hlen : (ts.map challenge).length = cs.length := by rw [List.length_map, hts.length_eq]
    -- the challenges that are not determined by the node's own
    have hchosen : (c.chosen fs (ts.map challenge)).length = c.freedom cs.length := by
      cases c with
      | all => rfl
      | any => rw [Connective.chosen, List.length_dropLast, hlen, Connective.freedom]
      | atLeast k =>
        rw [Connective.chosen, hshares.1, hlen, Connective.shareDegree, Connective.freedom,
          Connective.required]
        omega
    rw [simulationDraws, List.length_append, hchosen, length_simulationDrawsAll hp.2 hts,
      Proposition.scalarCount_node]

theorem ProofTree.length_simulationDrawsAll : ∀ {cs : List Proposition} {ts : List ProofTree},
    Proposition.WellFormedAll cs → AcceptingAll cs ts →
      (simulationDrawsAll ts).length = (cs.map Proposition.scalarCount).sum
  | [], [], _, _ => rfl
  | c :: cs, t :: ts, hp, h => by
    rw [simulationDrawsAll, List.length_append, length_simulationDraws hp.1 h.1,
      length_simulationDrawsAll hp.2 h.2, List.map_cons, List.sum_cons]

end

namespace Plan

/-- One challenge is chosen for each child that is not real. -/
theorem length_givenUp {ps : List Plan} {ts : List ProofTree} (hlen : ts.length = ps.length) :
    (givenUp ps ts).length = ps.length - ps.countP isReal := by
  induction ps generalizing ts with
  | nil => cases ts <;> rfl
  | cons p ps ih =>
    obtain ⟨t, ts, rfl⟩ := List.exists_cons_of_length_eq_add_one hlen
    have hcount := List.countP_le_length (p := isReal) (l := ps)
    have hrest := ih (Nat.succ.inj hlen)
    cases hreal : p.isReal <;>
      simp only [givenUp, hreal, if_true, Bool.false_eq_true, if_false, List.length_cons, hrest,
        List.countP_cons] <;> omega

mutual

/-- A real subtree draws as many scalars as a simulated one. -/
theorem length_draws {opens : Scalar → Statement → Prop} : ∀ {p : Plan} {t : ProofTree},
    p.Ready opens → p.proposition.WellFormed → t.Accepting p.proposition →
      (p.draws t).length = p.proposition.scalarCount
  | .leaf _ _, .leaf _ _ _ _, _, _, _ => rfl
  | .node c real ps, .node _ e fs ts, ⟨_, hcount, hready⟩, hp, ⟨_, _, hts⟩ => by
    have hlen : ts.length = ps.length := by rw [hts.length_eq, length_propositionAll]
    rw [draws, List.length_append, length_givenUp hlen, hcount, length_drawsAll hready hp.2 hts,
      proposition, Proposition.scalarCount_node, length_propositionAll, Connective.freedom_eq]

theorem length_drawsAll {opens : Scalar → Statement → Prop} : ∀ {ps : List Plan}
    {ts : List ProofTree}, ReadyAll opens ps → Proposition.WellFormedAll (propositionAll ps) →
    ProofTree.AcceptingAll (propositionAll ps) ts →
      (drawsAll ps ts).length = ((propositionAll ps).map Proposition.scalarCount).sum
  | [], [], _, _, _ => rfl
  | p :: ps, t :: ts, hready, hp, h => by
    rw [drawsAll, List.length_append, length_drawsAll hready.2 hp.2 h.2, propositionAll,
      List.map_cons, List.sum_cons]
    congr 1
    split
    · exact length_draws (hready.1 ‹_›) hp.1 h.1
    · exact ProofTree.length_simulationDraws hp.1 h.1

end

end Plan

/-! ## Tapes -/

/-- The next scalar of a tape; an empty one goes on with zeros. -/
def nextOfTape : List Scalar → Scalar × List Scalar
  | [] => (0, [])
  | x :: xs => (x, xs)

/-- Drawing as often as the tape is long yields the tape. -/
theorem supplies_tape {xs ys s' : List Scalar} (hlen : ys.length = xs.length) :
    Supplies nextOfTape xs ys s' ↔ ys = xs ∧ s' = [] := by
  induction xs generalizing ys with
  | nil => simp [List.length_eq_zero_iff.1 hlen, supplies_nil]
  | cons x xs ih =>
    obtain ⟨y, ys, rfl⟩ := List.exists_cons_of_length_eq_add_one hlen
    simp only [supplies_cons, nextOfTape, Prod.mk.injEq, List.cons.injEq]
    constructor
    · rintro ⟨m, ⟨rfl, rfl⟩, h⟩
      obtain ⟨rfl, rfl⟩ := (ih (by simpa using hlen)).1 h
      exact ⟨⟨rfl, rfl⟩, rfl⟩
    · rintro ⟨⟨rfl, rfl⟩, rfl⟩
      exact ⟨_, ⟨rfl, rfl⟩, (ih rfl).2 ⟨rfl, rfl⟩⟩

/-! ## Perfect hiding -/

/-- The tree that marking, polishing, first moves and answers leave, when the first moves draw the
scalars of a tape and the root challenge is `e`. -/
def transcript (resolve : Statement → Option Scalar) (p : Proposition) (e : Scalar)
    (xs : List Scalar) : Except ProverError ProofTree := do
  let (d, _) ← commit nextOfTape (Plan.toProve resolve p) xs
  d.respond e

/-- The tapes of the right length. -/
def tapes (p : Proposition) : Set (List Scalar) := {xs | xs.length = p.scalarCount}

/-- The trees with root challenge `e` whose nodes share their challenges by the rules and whose
leaves have accepting runs. -/
def acceptingTrees (p : Proposition) (e : Scalar) : Set (Except ProverError ProofTree) :=
  {r | ∃ t, r = .ok t ∧ t.challenge = e ∧ t.Accepting p}

theorem length_draws_toProve {resolve : Statement → Option Scalar} (hsound : Sound resolve)
    {p : Proposition} (hp : p.WellFormed) (hsat : Satisfies resolve p) {t : ProofTree}
    (h : t.Accepting p) : ((Plan.toProve resolve p).draws t).length = p.scalarCount := by
  have hplan := Plan.proposition_toProve resolve hp
  rw [Plan.length_draws (Plan.ready_toProve hsound hsat) (hplan.symm ▸ hp) (hplan.symm ▸ h), hplan]

/-- A tape leads to the accepting tree whose draws it spells. -/
theorem transcript_eq_ok [Lawful] {resolve : Statement → Option Scalar} (hsound : Sound resolve)
    {p : Proposition} (hp : p.WellFormed) (hsat : Satisfies resolve p) {e : Scalar}
    {xs : List Scalar} (hxs : xs ∈ tapes p) {t : ProofTree} :
    transcript resolve p e xs = .ok t ↔
      t.challenge = e ∧ t.Accepting p ∧ (Plan.toProve resolve p).draws t = xs := by
  have hplan := Plan.proposition_toProve resolve hp
  have hready := Plan.ready_toProve hsound hsat
  -- what a run takes from the tape are the scalars its tree is made from
  have hcommit (s' : List Scalar) :
      (∃ d, commit nextOfTape (Plan.toProve resolve p) xs = .ok (d, s') ∧ d.respond e = .ok t) ↔
        t.challenge = e ∧ t.Accepting p ∧
          Supplies nextOfTape xs ((Plan.toProve resolve p).draws t) s' := by
    have hiff : (∃ d, commit nextOfTape (Plan.toProve resolve p) xs = .ok (d, s') ∧
        d.respond e = .ok t) ↔ _ := commit_iff hready (hplan.symm ▸ hp)
    rwa [hplan] at hiff
  have hlen (h : t.Accepting p) : ((Plan.toProve resolve p).draws t).length = xs.length :=
    (length_draws_toProve hsound hp hsat h).trans hxs.symm
  simp only [transcript, Outcome.bind_eq_ok, Prod.exists]
  constructor
  · rintro ⟨d, s', hd, ht⟩
    obtain ⟨hchallenge, haccepting, h⟩ := (hcommit s').1 ⟨d, hd, ht⟩
    exact ⟨hchallenge, haccepting, ((supplies_tape (hlen haccepting)).1 h).1⟩
  · rintro ⟨hchallenge, haccepting, h⟩
    obtain ⟨d, hd, ht⟩ := (hcommit []).2
      ⟨hchallenge, haccepting, (supplies_tape (hlen haccepting)).2 ⟨h, rfl⟩⟩
    exact ⟨d, [], hd, ht⟩

end

/-- **Perfect hiding.**  Fix a valid proposition whose points decode and a root challenge.  With any
sound secrets that satisfy the proposition, the first moves draw one scalar for each leaf and each
free choice of a node; the scalars drawn determine the tree, and every accepting tree comes from
exactly one choice of them.  So the trees that other such secrets lead to are the same. -/
theorem perfect_hiding [Suite] [Lawful] {p : Proposition} (hp : p.NonTrivial)
    (hvalid : p.validate = .ok ()) (hdecodes : ∀ s ∈ p.leaves, s.Decodes) (e : Scalar)
    {resolve : Statement → Option Scalar} (hsound : Sound resolve)
    (hsat : Satisfies resolve p) :
    (∀ (σ : Type) (next : σ → Scalar × σ) (s : σ), ∃ d, commit next (Plan.toProve resolve p) s =
      .ok (d, (fun s => (next s).2)^[p.scalarCount] s)) ∧
    Set.BijOn (transcript resolve p e) (tapes p) (acceptingTrees p e) ∧
    ∀ resolve' : Statement → Option Scalar, Sound resolve' → Satisfies resolve' p →
      transcript resolve' p e '' tapes p = transcript resolve p e '' tapes p := by
  have hwell := ((Proposition.validate_eq_ok hp).1 hvalid).1
  have hbij {resolve : Statement → Option Scalar} (hsound : Sound resolve)
      (hsat : Satisfies resolve p) :
      Set.BijOn (transcript resolve p e) (tapes p) (acceptingTrees p e) := by
    have hmaps : Set.MapsTo (transcript resolve p e) (tapes p) (acceptingTrees p e) := by
      intro xs hxs
      obtain ⟨d, s', hd, hresponds⟩ := exists_realRun nextOfTape hsound hwell hsat hdecodes xs
      obtain ⟨t, ht⟩ := hresponds e
      have htranscript : transcript resolve p e xs = .ok t := by
        rw [transcript, hd]
        exact ht
      obtain ⟨hchallenge, haccepting, -⟩ :=
        (transcript_eq_ok hsound hwell hsat hxs).1 htranscript
      exact ⟨t, htranscript, hchallenge, haccepting⟩
    refine ⟨hmaps, fun xs hxs ys hys heq => ?_, ?_⟩
    · -- both tapes are the draws of one tree
      obtain ⟨t, ht, -⟩ := hmaps hxs
      rw [← ((transcript_eq_ok hsound hwell hsat hxs).1 ht).2.2,
        ((transcript_eq_ok hsound hwell hsat hys).1 (heq ▸ ht)).2.2]
    · rintro _ ⟨t, rfl, hchallenge, haccepting⟩
      have hlen : (Plan.toProve resolve p).draws t ∈ tapes p :=
        length_draws_toProve hsound hwell hsat haccepting
      exact ⟨_, hlen, (transcript_eq_ok hsound hwell hsat hlen).2 ⟨hchallenge, haccepting, rfl⟩⟩
  refine ⟨fun σ next s => ?_, hbij hsound hsat, fun resolve' hsound' hsat' => ?_⟩
  · obtain ⟨d, s', hd, hresponds⟩ := exists_realRun next hsound hwell hsat hdecodes s
    obtain ⟨t, ht⟩ := hresponds e
    have hplan := Plan.proposition_toProve resolve hwell
    obtain ⟨-, haccepting, hdraws⟩ :=
      (commit_iff (Plan.ready_toProve hsound hsat) (hplan.symm ▸ hwell)).1 ⟨d, hd, ht⟩
    rw [← length_draws_toProve hsound hwell hsat (hplan ▸ haccepting), ← hdraws.state_eq]
    exact ⟨d, hd⟩
  · rw [(hbij hsound' hsat').image_eq, (hbij hsound hsat).image_eq]

section

attribute [local instance] Suite.residues Suite.lawful_residues

/-- Who knows the secrets of the second and third child only. -/
def knowsOthers (s : Statement) : Option Scalar :=
  if s = .dlog (multiple 5) then some (ofNat 5) else none

theorem sound_knowsOthers : Sound knowsOthers := by
  intro s x h
  unfold knowsOthers at h
  split at h
  · rename_i hs
    cases h
    subst hs
    rfl
  · cases h

/-- Six scalars make a transcript for two of three: four for the leaves, one for the disjunction,
one for the threshold.  Those who know different leaves make the same transcripts. -/
theorem perfect_hiding_twoOfThree : twoOfThree.scalarCount = 6 ∧
    Set.BijOn (transcript knowsTwo twoOfThree (ofNat 7)) (tapes twoOfThree)
      (acceptingTrees twoOfThree (ofNat 7)) ∧
    transcript knowsOthers twoOfThree (ofNat 7) '' tapes twoOfThree =
      transcript knowsTwo twoOfThree (ofNat 7) '' tapes twoOfThree := by
  have hsatisfies : Satisfies knowsOthers twoOfThree := by
    rw [Satisfies]
    decide
  obtain ⟨-, hbij, hsame⟩ := perfect_hiding (p := twoOfThree) rfl rfl decodes_twoOfThree (ofNat 7)
    sound_knowsTwo satisfies_knowsTwo
  exact ⟨rfl, hbij, hsame knowsOthers sound_knowsOthers hsatisfies⟩

end

end Covenant

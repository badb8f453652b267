/-
  LIMIT — the cost limit of a reduction is a cut-off and nothing more.

  Take one condition in one context under two limits.  As long as no charge passes the lower limit,
  both runs do the same: nothing reads the limit but the charges.  The first charge that passes it
  ends the lower run with the total it would have had; the other run has that total from there on,
  and a total never falls.

  1. **`CutOff`** relates the outcome under the lower limit to the one under the higher.
  2. **`Metered.cutOff_run`** — the crux: whatever is metered ends in related outcomes.
  3. **`Condition.reduce_cutOff`** — the same for the answers of a reduction.
-/
import Covenant.Proofs.Reduction.Scripts
import Covenant.Suite.Standard

namespace Covenant

/-- Outcomes of one computation under a lower limit and under the limit `high`. -/
inductive CutOff {α : Type} (high : Nat) :
    Except ReductionError α × Meter → Except ReductionError α × Meter → Prop
  /-- The lower limit was not felt. -/
  | same (r : Except ReductionError α) (m : Meter) :
      CutOff high (r, m) (r, { m with limit := high })
  /-- A charge would have taken the total to `cost`; the run under the higher limit passed it. -/
  | cut (cost : Nat) (m : Meter) (r : Except ReductionError α) (m' : Meter)
      (above : m.limit < cost) (passed : ∀ a, r = .ok a → cost ≤ m'.spent) :
      CutOff high (.error (.costLimitExceeded cost m.limit), m) (r, m')

/-- **Limits only cut off.**  Raising the limit changes nothing in a run that did not reach it. -/
theorem Metered.cutOff_run {A : Opcode → Prop} {α : Type} {x : EvalM α} (hx : Metered A x)
    {m : Meter} (hm : m.Within) {high : Nat} (hle : m.limit ≤ high) (hhigh : high ≤ maxCost) :
    CutOff high (x.run m) (x.run { m with limit := high }) := by
  induction hx generalizing m with
  | pure | fail | note | noteValue => exact .same _ _
  | charge cost =>
    simp only [EvalM.run_charge]
    by_cases hlow : m.limit < addCost m.spent cost
    · rw [if_pos hlow]
      -- over the lower limit: under the higher one the run may go on, or fail here too
      by_cases htop : high < addCost m.spent cost
      · rw [if_pos htop]
        exact .cut _ m _ _ hlow fun a ha => by cases ha
      · rw [if_neg htop]
        exact .cut _ m _ _ hlow fun _ _ => Nat.le_refl _
    · rw [if_neg hlow, if_neg fun h => hlow (Nat.lt_of_le_of_lt hle h)]
      exact .same (.ok ()) { m with spent := addCost m.spent cost }
  | @bind α β x f hx hf ihx ihf =>
    have hrun := hx.run_meter hm
    have hhigher := hx.run_meter (m := { m with limit := high })
      ⟨Nat.le_trans hm.spent_le hle, hhigh⟩
    have hcut := ihx hm hle
    rw [EvalM.run_bind, EvalM.run_bind]
    generalize x.run m = low at *
    generalize x.run { m with limit := high } = top at *
    -- either both runs have come to one place, or the lower one has stopped
    cases hcut with
    | same r m' =>
      cases r with
      | error e => exact .same _ _
      | ok a => exact ihf a hrun.2.2 (hrun.2.1 ▸ hle)
    | cut cost m' r m'' above passed =>
      refine .cut cost m' _ _ above fun b hb => ?_
      cases r with
      | error e => cases hb
      | ok a => exact Nat.le_trans (passed a rfl) ((hf a).run_meter hhigher.2.2).1

namespace Condition

variable [Suite] (c : Condition) (ctx : Context)

/-- The two ways in which reductions under a lower and a higher limit compare. -/
theorem reduce_cutOff {low high : UInt64} (h : low ≤ high) :
    (c.reduce ctx high = c.reduce ctx low ∧
      ∀ r, c.reduce ctx low = .ok r → r.cost ≤ low) ∨
    (∃ cost, c.reduce ctx low = .error (.costLimitExceeded cost low.toNat) ∧ low.toNat < cost ∧
      ∀ r, c.reduce ctx high = .ok r → cost ≤ r.cost.toNat) := by
  have hmetered : Metered (fun _ => True) (c.run ctx) :=
    metered_run (fun _ _ _ _ => trivial) fun _ _ _ _ _ => trivial
  have hlow := hmetered.run_meter (Meter.within_new low)
  have hhigh := hmetered.run_meter (Meter.within_new high)
  have hcut := hmetered.cutOff_run (Meter.within_new low) (UInt64.le_iff_toNat_le.1 h)
    (Meter.within_new high).limit_le
  have htop : ({ Meter.new low with limit := high.toNat } : Meter) = Meter.new high := rfl
  rw [htop] at hcut
  simp only [reduce]
  generalize (c.run ctx).run (Meter.new low) = outcome at *
  generalize (c.run ctx).run (Meter.new high) = outcome' at *
  -- what fits under a 64-bit limit is its own 64-bit number
  have fits {m : Meter} (hm : m.Within) : (UInt64.ofNat m.spent).toNat = m.spent :=
    UInt64.toNat_ofNat_of_lt'
      (Nat.lt_succ_of_le (Nat.le_trans hm.spent_le hm.limit_le) : _ < maxCost + 1)
  cases hcut with
  | same r m =>
    left
    cases r with
    | error e => exact ⟨rfl, fun r hr => by cases hr⟩
    | ok p =>
      refine ⟨rfl, fun r hr => ?_⟩
      cases hr
      rw [UInt64.le_iff_toNat_le, fits hlow.2.2]
      exact Nat.le_trans hlow.2.2.spent_le (Nat.le_of_eq hlow.2.1)
  | cut cost m r m' above passed =>
    right
    have hlimit : m.limit = low.toNat := hlow.2.1
    refine ⟨cost, by rw [hlimit], hlimit ▸ above, fun s hs => ?_⟩
    cases r with
    | error e => cases hs
    | ok p =>
      cases hs
      rw [fits hhigh.2.2]
      exact passed p rfl

/-- A successful reduction stays within its limit. -/
theorem cost_le_of_reduce {limit : UInt64} {r : Reduction} (h : c.reduce ctx limit = .ok r) :
    r.cost ≤ limit := by
  rcases c.reduce_cutOff ctx (UInt64.le_refl limit) with ⟨_, hcost⟩ | ⟨cost, hcut, _, _⟩
  · exact hcost r h
  · rw [hcut] at h
    cases h

/-- A reduction that succeeded succeeds alike under every limit that covers its cost. -/
theorem reduce_of_cost_le {limit limit' : UInt64} {r : Reduction}
    (h : c.reduce ctx limit = .ok r) (hle : r.cost ≤ limit') : c.reduce ctx limit' = .ok r := by
  rcases UInt64.le_total limit limit' with hlim | hlim
  · rcases c.reduce_cutOff ctx hlim with ⟨hsame, _⟩ | ⟨cost, hcut, _, _⟩
    · rw [hsame, h]
    · rw [hcut] at h
      cases h
  · rcases c.reduce_cutOff ctx hlim with ⟨hsame, _⟩ | ⟨cost, _, habove, hbelow⟩
    · rw [← hsame, h]
    · have := hbelow r h
      have := UInt64.le_iff_toNat_le.1 hle
      omega

/-- **The limit is only a cut-off.**  An answer other than "limit exceeded" is the answer under
every higher limit.  A reduction that succeeds under the higher limit succeeds alike under every
limit that covers its cost; under any other it fails, at a total between that limit and its cost. -/
theorem reduce_of_le {low high : UInt64} (h : low ≤ high) :
    ((∀ cost limit, c.reduce ctx low ≠ .error (.costLimitExceeded cost limit)) →
      c.reduce ctx high = c.reduce ctx low) ∧
    ∀ r, c.reduce ctx high = .ok r →
      (r.cost ≤ low → c.reduce ctx low = .ok r) ∧
      (low < r.cost → ∃ cost, c.reduce ctx low = .error (.costLimitExceeded cost low.toNat) ∧
        low.toNat < cost ∧ cost ≤ r.cost.toNat) := by
  rcases c.reduce_cutOff ctx h with ⟨hsame, hcost⟩ | ⟨cost, hcut, habove, hbelow⟩
  · refine ⟨fun _ => hsame, fun r hr => ⟨fun _ => hsame ▸ hr, fun hlt => ?_⟩⟩
    exact absurd (hcost r (hsame ▸ hr)) (UInt64.not_le.2 hlt)
  · exact ⟨fun hne => absurd hcut (hne _ _), fun r hr =>
      ⟨c.reduce_of_cost_le ctx hr, fun _ => ⟨cost, hcut, habove, hbelow r hr⟩⟩⟩

end Condition

/-! ## A limit that is reached -/

/-- The context of a transaction without boxes, on a chain that has only begun. -/
def Context.blank : Context where
  tx := ⟨[], [], [], ⟨[], .zero 33, ⟨0, .zero 32, 0, 0, 0, .zero 32, .zero 3⟩⟩⟩
  selfIndex := 0
  extension := .empty
  activatedVersion := 0

/-- Eleven units are spent on two nodes: a limit of ten stops at the second of them. -/
theorem Condition.reduce_of_le_boolToSigma :
    let c := Condition.new (.unary .boolToSigma (.const (.bool true)))
    (10 : UInt64) ≤ 100 ∧ c.reduce .blank 100 = .ok ⟨.trivial true, 11⟩ ∧
      ∃ cost, c.reduce .blank 10 = .error (.costLimitExceeded cost 10) ∧ 10 < cost ∧ cost ≤ 11 := by
  intro c
  have hle : (10 : UInt64) ≤ 100 := by decide
  have hok : c.reduce .blank 100 = .ok ⟨.trivial true, 11⟩ := by
    with_unfolding_all rfl
  exact ⟨hle, hok, ((c.reduce_of_le .blank hle).2 _ hok).2 (by decide)⟩

end Covenant

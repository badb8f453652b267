/-
  LEAF — the protocol for one statement: complete, sound, and run backwards.

  1. **Batches** — the value of a weighted sum of equations is the weighted sum of their values, so
     equations that all hold pass together under any weights (`Equation.allHold_of_forall`).
  2. **One description of accepting runs** — the equations of a run hold exactly when its commitment
     is the one that `simulate?` computes from challenge and answer
     (`Statement.accepts_iff_simulate?`).  So a commitment is determined by challenge and answer.
  3. **Completeness** — with a secret that opens the statement, the commitment to a nonce `r` is
     the simulated one for the answer `r + e x`, and every accepting run arises this way from
     exactly one nonce (`Statement.commit?_eq_ok_iff`).
  4. **Special soundness** — two accepting runs with one commitment and two challenges yield the
     secret (`Statement.opens_of_accepts`).
-/
import Covenant.Proof.Leaf
import Covenant.Proofs.Outcome
import Covenant.Proofs.Suite.Lawful

namespace Covenant

open Suite

namespace Equation

variable [Suite]

/-! ## Batches of equations -/

theorem combine_append (ts us : List (Scalar × PointName)) [Lawful] :
    combine (ts ++ us) = (combine ts).bind fun P => (combine us).map fun Q => P + Q := by
  induction ts with
  | nil => cases h : combine us <;> simp [combine, h]
  | cons t ts ih =>
    obtain ⟨w, b⟩ := t
    simp only [List.cons_append, combine, ih]
    cases decompress b <;> cases combine ts <;> cases combine us <;> simp [add_assoc]

theorem combine_scale (w : Scalar) (ts : List (Scalar × PointName)) [Lawful] :
    combine (ts.map fun t => (w * t.1, t.2)) = (combine ts).map fun P : Point => w * P := by
  induction ts with
  | nil => simp [combine, mul_eq_smul]
  | cons t ts ih =>
    obtain ⟨v, b⟩ := t
    simp only [List.map_cons, combine, ih]
    cases decompress b <;> cases combine ts <;>
      simp [Lawful.mul_smul, Lawful.smul_add]

/-- The value of an equation whose generator's coefficient is taken as zero where there is none. -/
theorem value_eq (q : Equation) [Lawful] :
    q.value = (combine q.terms).map (fun P => q.base.getD 0 * (Suite.base : Point) + P) := by
  obtain ⟨w, ts⟩ := q
  cases h : combine ts <;> cases w <;> simp [value, h, zero_smul_point]

/-- An equation holds when its value is zero. -/
theorem holds_iff {q : Equation} : q.holds ↔ q.value = some 0 := by
  rw [holds, beq_iff_eq]

/-- The empty sum is zero. -/
theorem value_weigh_nil (weight : Nat → Scalar) (start : Nat) :
    (weigh weight start []).value = some 0 := rfl

/-- **Weighted sums**: an equation that joins a batch adds the multiple of its value by its weight;
without a value of its own it leaves the batch without one. -/
theorem value_weigh_cons [Lawful] (weight : Nat → Scalar) (start : Nat) (q : Equation)
    (qs : List Equation) : (weigh weight start (q :: qs)).value =
      q.value.bind fun P => (weigh weight (start + 1) qs).value.map fun Q =>
        weight start * P + Q := by
  have hbase : (q.base.map fun v => weight start * v).getD 0 = weight start * q.base.getD 0 := by
    cases h : q.base <;> simp
  simp only [weigh, value_eq, combine_append, scale, combine_scale, hbase, Option.getD_some]
  cases combine q.terms with
  | none => rfl
  | some P =>
    cases combine (weigh weight (start + 1) qs).terms with
    | none => rfl
    | some Q =>
      simp only [Option.map_some, Option.bind_some, Option.some.injEq, mul_eq_smul]
      module

/-- A weighted sum of equations that vanish vanishes. -/
theorem holds_weigh [Lawful] (weight : Nat → Scalar) (start : Nat) (qs : List Equation)
    (h : ∀ q ∈ qs, q.holds) : (weigh weight start qs).holds := by
  rw [holds_iff]
  induction qs generalizing start with
  | nil => exact value_weigh_nil weight start
  | cons q qs ih =>
    have hq : q.value = some 0 := holds_iff.1 (h q List.mem_cons_self)
    have hqs := ih (start + 1) fun q' hq' => h q' (List.mem_cons_of_mem _ hq')
    rw [value_weigh_cons, hq, hqs, Option.bind_some, Option.map_some, smul_zero_point, add_zero]

/-- Equations that all hold pass together, whatever their weights. -/
theorem allHold_of_forall [Lawful] (weight : Nat → Scalar) {qs : List Equation}
    (h : ∀ q ∈ qs, q.holds) : allHold weight qs :=
  holds_weigh weight 0 qs h

end Equation

namespace Statement

variable [Suite]

/-! ## Accepting runs -/

/-- The public points. -/
def names : Statement → List PointName
  | .dlog y => [y]
  | .dhTuple g h u v => [g, h, u, v]

/-- Every public point decodes. -/
def Decodes (s : Statement) : Prop := ∀ b ∈ s.names, (decompress b).isSome

/-- The commitment is of the statement's kind and all equations of the run hold. -/
def Accepts (s : Statement) (a : Commitment) (e z : Scalar) : Prop :=
  ∃ qs, s.equations? a e z = some qs ∧ ∀ q ∈ qs, q.holds

theorem tuplePoint?_eq_ok {b : PointName} {P : Point} :
    tuplePoint? b = .ok P ↔ decompress b = some P := by
  unfold tuplePoint?
  split <;> simp_all

theorem decodes_dlog {y : PointName} : (dlog y).Decodes ↔ ∃ Y, decompress y = some Y := by
  simp [Decodes, names, Option.isSome_iff_exists]

theorem decodes_dhTuple {g h u v : PointName} : (dhTuple g h u v).Decodes ↔
    (∃ G, decompress g = some G) ∧ (∃ H, decompress h = some H) ∧
      (∃ U, decompress u = some U) ∧ ∃ V, decompress v = some V := by
  simp [Decodes, names, Option.isSome_iff_exists]

theorem simulate?_dlog {y : PointName} {e z : Scalar} {a : Commitment} :
    (dlog y).simulate? e z = .ok a ↔
      ∃ Y, decompress y = some Y ∧ a = .dlog (compress (z * (base : Point) - e * Y)) := by
  cases h : decompress y <;> simp [simulate?, h, eq_comm]

theorem simulate?_dhTuple {g h u v : PointName} {e z : Scalar} {a : Commitment} :
    (dhTuple g h u v).simulate? e z = .ok a ↔ ∃ G H U V, decompress g = some G ∧
      decompress h = some H ∧ decompress u = some U ∧ decompress v = some V ∧
      a = .dhTuple (compress (z * G - e * U)) (compress (z * H - e * V)) := by
  simp only [simulate?, Outcome.bind_eq_ok, tuplePoint?_eq_ok, Outcome.pure_eq, Except.ok.injEq]
  grind

theorem commit?_dhTuple {g h u v : PointName} {r : Scalar} {a : Commitment} :
    (dhTuple g h u v).commit? r = .ok a ↔ ∃ G H U V, decompress g = some G ∧
      decompress h = some H ∧ decompress u = some U ∧ decompress v = some V ∧
      a = .dhTuple (compress (r * G)) (compress (r * H)) := by
  simp only [commit?, Outcome.bind_eq_ok, tuplePoint?_eq_ok, Outcome.pure_eq, Except.ok.injEq]
  grind

/-- A statement whose points decode can be simulated for every challenge and answer. -/
theorem exists_simulate? {s : Statement} (h : s.Decodes) (e z : Scalar) :
    ∃ a, s.simulate? e z = .ok a := by
  cases s with
  | dlog y =>
    obtain ⟨Y, hY⟩ := decodes_dlog.1 h
    exact ⟨_, simulate?_dlog.2 ⟨Y, hY, rfl⟩⟩
  | dhTuple g h' u v =>
    obtain ⟨⟨G, hG⟩, ⟨H, hH⟩, ⟨U, hU⟩, ⟨V, hV⟩⟩ := decodes_dhTuple.1 h
    exact ⟨_, simulate?_dhTuple.2 ⟨G, H, U, V, hG, hH, hU, hV, rfl⟩⟩

/-- Any nonce has a commitment when the points decode. -/
theorem exists_commit? {s : Statement} (h : s.Decodes) (r : Scalar) :
    ∃ a, s.commit? r = .ok a := by
  cases s with
  | dlog y => exact ⟨_, rfl⟩
  | dhTuple g h' u v =>
    obtain ⟨⟨G, hG⟩, ⟨H, hH⟩, ⟨U, hU⟩, ⟨V, hV⟩⟩ := decodes_dhTuple.1 h
    exact ⟨_, commit?_dhTuple.2 ⟨G, H, U, V, hG, hH, hU, hV, rfl⟩⟩

variable [Lawful]

/-- A generic equation of the protocol, for one base point and one public point. -/
theorem eq_sub_iff {z e : Scalar} {G A U : Point} :
    z * G + ((-1 : Scalar) * A + ((-e) * U + 0)) = 0 ↔ A = z * G - e * U := by
  have h : z * G + ((-1 : Scalar) * A + ((-e) * U + 0)) = (z * G - e * U) - A := by
    simp only [mul_eq_smul]; module
  rw [h, sub_eq_zero, eq_comm]

theorem holds_dlog {z e : Scalar} {a y : PointName} :
    Equation.holds ⟨some z, [(-1, a), (-e, y)]⟩ ↔
      ∃ Y, decompress y = some Y ∧ a = compress (z * (base : Point) - e * Y) := by
  cases hY : decompress y with
  | none =>
    cases hA : decompress a <;> simp [Equation.holds, Equation.value, Equation.combine, hA, hY]
  | some Y =>
    cases hA : decompress a with
    | none =>
      simp only [Equation.holds, Equation.value, Equation.combine, hA, hY]
      constructor
      · simp
      · -- what was compressed decodes, against the case at hand
        rintro ⟨_, -, rfl⟩
        simp [Lawful.decompress_compress] at hA
    | some A =>
      -- octets that decode are the encoding of their point, so points may be compared instead
      obtain rfl := Lawful.compress_of_decompress a A hA
      simp only [Equation.holds, Equation.value, Equation.combine, hA, hY, Option.bind_eq_bind,
        Option.bind_some, beq_iff_eq, Option.some.injEq, eq_sub_iff, exists_eq_left']
      exact ⟨congrArg _, compress_injective⟩

theorem holds_dhTuple {z e : Scalar} {a g u : PointName} :
    Equation.holds ⟨none, [(z, g), (-1, a), (-e, u)]⟩ ↔
      ∃ G U, decompress g = some G ∧ decompress u = some U ∧ a = compress (z * G - e * U) := by
  cases hG : decompress g with
  | none => simp [Equation.holds, Equation.value, Equation.combine, hG]
  | some G =>
    cases hU : decompress u with
    | none =>
      cases hA : decompress a <;> simp [Equation.holds, Equation.value, Equation.combine, hA, hU]
    | some U =>
      cases hA : decompress a with
      | none =>
        simp only [Equation.holds, Equation.value, Equation.combine, hA, hU, hG]
        constructor
        · simp
        · rintro ⟨_, _, -, -, rfl⟩
          simp [Lawful.decompress_compress] at hA
      | some A =>
        obtain rfl := Lawful.compress_of_decompress a A hA
        simp only [Equation.holds, Equation.value, Equation.combine, hA, hU, hG,
          Option.bind_eq_bind, Option.bind_some, beq_iff_eq, Option.some.injEq, eq_sub_iff,
          exists_eq_left', exists_and_left]
        exact ⟨congrArg _, compress_injective⟩

/-- **Accepting runs** are those whose commitment is computed from challenge and answer. -/
theorem accepts_iff_simulate? {s : Statement} {a : Commitment} {e z : Scalar} :
    s.Accepts a e z ↔ s.simulate? e z = .ok a := by
  cases s with
  | dlog y =>
    cases a with
    | dlog a => simp [Accepts, equations?, simulate?_dlog, holds_dlog]
    | dhTuple a b => simp [Accepts, equations?, simulate?_dlog]
  | dhTuple g h u v =>
    cases a with
    | dlog a => simp [Accepts, equations?, simulate?_dhTuple]
    | dhTuple a b =>
      simp only [Accepts, equations?, simulate?_dhTuple, Option.some.injEq, exists_eq_left',
        List.forall_mem_cons, List.not_mem_nil, false_implies, implies_true, and_true,
        holds_dhTuple, Commitment.dhTuple.injEq]
      grind

/-- Only statements whose points decode have accepting runs. -/
theorem Accepts.decodes {s : Statement} {a : Commitment} {e z : Scalar} (h : s.Accepts a e z) :
    s.Decodes := by
  have hsimulate := accepts_iff_simulate?.1 h
  cases s with
  | dlog y =>
    obtain ⟨Y, hY, -⟩ := simulate?_dlog.1 hsimulate
    exact decodes_dlog.2 ⟨Y, hY⟩
  | dhTuple g h u v =>
    obtain ⟨G, H, U, V, hG, hH, hU, hV, -⟩ := simulate?_dhTuple.1 hsimulate
    exact decodes_dhTuple.2 ⟨⟨G, hG⟩, ⟨H, hH⟩, ⟨U, hU⟩, ⟨V, hV⟩⟩

/-! ## Completeness -/

/-- The commitment to a nonce, under a challenge that comes later. -/
theorem sub_smul_eq (r e x : Scalar) (G : Point) : (r + e * x) * G - e * (x * G) = r * G := by
  simp only [mul_eq_smul]; module

/-- With the secret at hand, committing to `r` and answering `r + e x` is an accepting run, and
every accepting run is of this form. -/
theorem commit?_eq_ok_iff {s : Statement} {x : Scalar} (hx : s.opens x) {r e : Scalar}
    {a : Commitment} : s.commit? r = .ok a ↔ s.simulate? e (r + e * x) = .ok a := by
  cases s with
  | dlog y =>
    obtain rfl : y = publicPoint x := hx
    simp only [commit?, simulate?_dlog, publicPoint, Lawful.decompress_compress,
      Option.some.injEq, exists_eq_left', sub_smul_eq, Except.ok.injEq]
    exact eq_comm
  | dhTuple g h u v =>
    obtain ⟨G, H, hG, hH, rfl, rfl⟩ := hx
    simp only [commit?_dhTuple, simulate?_dhTuple, hG, hH, Lawful.decompress_compress,
      Option.some.injEq, exists_and_left, exists_eq_left', sub_smul_eq]

/-! ## Special soundness -/

/-- Two lines through one point, solved for their common slope. -/
theorem smul_extract {G U : Point} {e e' z z' : Scalar} (he : e ≠ e')
    (h : z * G - e * U = z' * G - e' * U) : U = ((z - z') * inverse (e - e')) * G := by
  have hne : e - e' ≠ 0 := sub_ne_zero.2 he
  have hslope : (e - e') * U = (z - z') * G := by
    have hzero : (z * G - e * U) - (z' * G - e' * U) = 0 := sub_eq_zero.2 h
    rw [← sub_eq_zero, ← neg_eq_zero, ← hzero]
    simp only [mul_eq_smul]; module
  calc U = inverse (e - e') * ((e - e') * U) := (inverse_smul_smul hne U).symm
    _ = ((z - z') * inverse (e - e')) * G := by rw [hslope, ← Lawful.mul_smul, mul_comm]

/-- **Special soundness**: two accepting runs with one commitment and two challenges yield a secret
that opens the statement. -/
theorem opens_of_accepts {s : Statement} {a : Commitment} {e e' z z' : Scalar} (he : e ≠ e')
    (h : s.Accepts a e z) (h' : s.Accepts a e' z') :
    s.opens ((z - z') * inverse (e - e')) := by
  rw [accepts_iff_simulate?] at h h'
  cases s with
  | dlog y =>
    obtain ⟨Y, hY, rfl⟩ := simulate?_dlog.1 h
    -- one commitment, computed twice: the two points are the same, and the secret is their quotient
    obtain ⟨Y', hY', ha⟩ := simulate?_dlog.1 h'
    obtain rfl : Y = Y' := Option.some.inj (hY.symm.trans hY')
    have hpoint := smul_extract he (compress_injective (Commitment.dlog.inj ha))
    rw [opens, publicPoint, ← hpoint, Lawful.compress_of_decompress y Y hY]
  | dhTuple g h u v =>
    obtain ⟨G, H, U, V, hG, hH, hU, hV, rfl⟩ := simulate?_dhTuple.1 h
    obtain ⟨G', H', U', V', hG', hH', hU', hV', ha⟩ := simulate?_dhTuple.1 h'
    obtain rfl : G = G' := Option.some.inj (hG.symm.trans hG')
    obtain rfl : H = H' := Option.some.inj (hH.symm.trans hH')
    obtain rfl : U = U' := Option.some.inj (hU.symm.trans hU')
    obtain rfl : V = V' := Option.some.inj (hV.symm.trans hV')
    -- both halves of the commitment give the same quotient
    obtain ⟨hleft, hright⟩ := Commitment.dhTuple.inj ha
    refine ⟨G, H, hG, hH, ?_, ?_⟩
    · rw [← smul_extract he (compress_injective hleft), Lawful.compress_of_decompress u U hU]
    · rw [← smul_extract he (compress_injective hright), Lawful.compress_of_decompress v V hV]

end Statement

end Covenant

/-
  BATCHING — one check of a weighted sum in place of a check for each equation.

  `allHold` scales the `i`-th equation by the `i`-th weight and asks whether the sum vanishes.

  1. **Undefined values** — an equation has a value exactly when all its points decode
     (`value_eq_none_iff`), and a batch with an equation that has none has none itself, whatever
     the weights (`value_weigh_eq_none`).
  2. **One weight** — two choices of the weights that differ only at one place give sums that
     differ by a multiple of that equation's value: the multiple by the difference of the two
     weights (`value_weigh_sub`).  This is the crux, an induction on the equations in front of that
     place.
  3. **`allHold_agrees`** — so two sums that both vanish have the same weight there, unless the
     equation's own value is zero: a multiple of a point vanishes only with one of its factors.
     A batch that passes under all weights therefore has only equations that hold
     (`forall_allHold_iff`).
-/
import Covenant.Proofs.Protocol.Leaf
import Covenant.Proofs.Suite.Residues

namespace Covenant.Equation

open Suite

section

variable [Suite]

/-! ## Undefined values -/

/-- A sum of multiples is undefined exactly when a summand does not decode. -/
theorem combine_eq_none_iff {ts : List (Scalar × PointName)} :
    combine ts = none ↔ ∃ t ∈ ts, decompress t.2 = none := by
  induction ts with
  | nil => simp [combine]
  | cons t ts ih =>
    obtain ⟨w, b⟩ := t
    rw [List.exists_mem_cons_iff, ← ih, combine]
    cases decompress b <;> cases combine ts <;> simp

/-- An equation has no value exactly when one of its points does not decode. -/
theorem value_eq_none_iff [Lawful] {q : Equation} :
    q.value = none ↔ ∃ t ∈ q.terms, decompress t.2 = none := by
  rw [value_eq, Option.map_eq_none_iff, combine_eq_none_iff]

/-- An equation without a value leaves its batch without one. -/
theorem value_weigh_eq_none [Lawful] (weight : Nat → Scalar) (start : Nat) {q : Equation}
    {qs : List Equation} (hmem : q ∈ qs) (hq : q.value = none) :
    (weigh weight start qs).value = none := by
  induction qs generalizing start with
  | nil => cases hmem
  | cons q' qs ih =>
    rw [value_weigh_cons]
    rcases List.mem_cons.1 hmem with rfl | htail
    · rw [hq, Option.bind_none]
    · rw [ih (start + 1) htail]
      cases q'.value <;> rfl

/-! ## One weight -/

/-- A batch depends only on the weights of its equations. -/
theorem weigh_congr {weight weight' : Nat → Scalar} (qs : List Equation) (start : Nat)
    (h : ∀ i, start ≤ i → weight i = weight' i) :
    weigh weight start qs = weigh weight' start qs := by
  induction qs generalizing start with
  | nil => rfl
  | cons q qs ih =>
    have hrest := ih (start + 1) fun i hi => h i (Nat.le_of_succ_le hi)
    simp only [weigh, h start (Nat.le_refl start), hrest]

/-- **Changing one weight** adds a multiple of the value of the equation it belongs to. -/
theorem value_weigh_sub [Lawful] {weight weight' : Nat → Scalar} {q : Equation} {P A B : Point}
    (qs : List Equation) (start j : Nat) (hj : qs[j]? = some q) (hP : q.value = some P)
    (hweights : ∀ i, i ≠ start + j → weight i = weight' i)
    (hA : (weigh weight start qs).value = some A)
    (hB : (weigh weight' start qs).value = some B) :
    A - B = (weight (start + j) - weight' (start + j)) * P := by
  induction qs generalizing start j A B with
  | nil => cases hj
  | cons q' qs ih =>
    rw [value_weigh_cons, Option.bind_eq_some_iff] at hA hB
    obtain ⟨Q, hQ, hA⟩ := hA
    obtain ⟨Q', hQ', hB⟩ := hB
    obtain rfl : Q = Q' := Option.some.inj (hQ.symm.trans hQ')
    obtain ⟨R, hR, rfl⟩ := Option.map_eq_some_iff.1 hA
    obtain ⟨S, hS, rfl⟩ := Option.map_eq_some_iff.1 hB
    cases j with
    | zero =>
      -- The equation stands in front: the rest of the batch has the same weights twice.
      obtain rfl : q' = q := Option.some.inj hj
      obtain rfl : Q = P := Option.some.inj (hQ.symm.trans hP)
      have hsame := weigh_congr qs (start + 1) fun i hi => hweights i (by omega)
      rw [hsame, hS] at hR
      obtain rfl : S = R := Option.some.inj hR
      rw [Nat.add_zero, mul_eq_smul, mul_eq_smul, mul_eq_smul]
      module
    | succ j =>
      -- The front has one weight twice, and the difference comes from the rest.
      have hfront : weight start = weight' start := hweights start (by omega)
      have hplace : start + (j + 1) = start + 1 + j := by omega
      rw [hplace] at hweights ⊢
      rw [hfront, add_sub_add_left_eq_sub]
      exact ih (start + 1) j hj hweights hR hS

/-! ## Agreement -/

/-- A batch passes under all weights exactly when every equation holds. -/
theorem forall_allHold_iff [Lawful] {qs : List Equation} :
    (∀ weight, allHold weight qs) ↔ ∀ q ∈ qs, q.holds := by
  refine ⟨fun hall q hmem => ?_, fun hholds weight => allHold_of_forall weight hholds⟩
  have hvanishes (weight : Nat → Scalar) : (weigh weight 0 qs).value = some 0 :=
    holds_iff.1 (hall weight)
  cases hq : q.value with
  | none =>
    have hnone := hvanishes fun _ => 0
    rw [value_weigh_eq_none _ 0 hmem hq] at hnone
    cases hnone
  | some P =>
    -- Weight one at its place and zero elsewhere leaves the equation's own value.
    obtain ⟨j, hj⟩ := List.getElem?_of_mem hmem
    have hsub := value_weigh_sub qs 0 j hj hq (fun i hi => if_neg (by simpa using hi))
      (hvanishes fun i => if i = j then 1 else 0) (hvanishes fun _ => 0)
    have hP : P = 0 := by simpa [mul_eq_smul, eq_comm] using hsub
    rw [holds_iff, hq, hP]

/-- **A batch agrees with its equations.**  It fails under all weights when a point of some equation
does not decode, and that equation fails too; it passes under all weights when every equation
holds; and when the `j`-th equation has a value other than zero, at most one choice of its weight
lets the batch pass, the other weights given. -/
theorem allHold_agrees [Lawful] (qs : List Equation) :
    (∀ q ∈ qs, (∃ t ∈ q.terms, decompress t.2 = none) →
      q.holds = false ∧ ∀ weight, allHold weight qs = false) ∧
    ((∀ q ∈ qs, q.holds) → ∀ weight, allHold weight qs) ∧
    ∀ (j : Nat) (q : Equation), qs[j]? = some q → (∀ t ∈ q.terms, decompress t.2 ≠ none) →
      q.value ≠ some 0 → ∀ weight weight' : Nat → Scalar, (∀ i, i ≠ j → weight i = weight' i) →
        allHold weight qs → allHold weight' qs → weight j = weight' j := by
  refine ⟨?_, fun hall weight => allHold_of_forall weight hall, ?_⟩
  · intro q hmem hundefined
    have hq : q.value = none := value_eq_none_iff.2 hundefined
    refine ⟨?_, fun weight => ?_⟩
    · rw [holds, hq]
      rfl
    · rw [allHold, holds, value_weigh_eq_none weight 0 hmem hq]
      rfl
  · intro j q hj hdecodes hne weight weight' hweights hpass hpass'
    have hdefined : q.value ≠ none := by
      intro hnone
      obtain ⟨t, ht, hbad⟩ := value_eq_none_iff.1 hnone
      exact hdecodes t ht hbad
    obtain ⟨P, hP⟩ := Option.ne_none_iff_exists'.1 hdefined
    have hPne : P ≠ 0 := fun h => hne (h ▸ hP)
    -- both batches vanish, and so does their difference
    have hzero : (weight j - weight' j) * P = 0 := by
      have hsub := value_weigh_sub qs 0 j hj hP (by simpa using hweights) (holds_iff.1 hpass)
        (holds_iff.1 hpass')
      rw [Nat.zero_add, sub_self] at hsub
      exact hsub.symm
    rcases smul_point_eq_zero.1 hzero with hdiff | hP0
    · exact sub_eq_zero.1 hdiff
    · exact absurd hP0 hPne

end

section

attribute [local instance] Suite.residues Suite.lawful_residues

/-- `3 · base − P` for the point `P` with exponent 3: an equation that holds. -/
def right : Equation := ⟨some (ofNat 3), [(-ofNat 1, multiple 3)]⟩

/-- `2 · base − P` for the point `P` with exponent 3: an equation that fails. -/
def wrong : Equation := ⟨some (ofNat 2), [(-ofNat 1, multiple 3)]⟩

/-- An equation about a block that encodes no point. -/
def undecodable : Equation := ⟨none, [(ofNat 1, Octets.ofNatLE 32 257)]⟩

/-- Two equations that hold pass under all weights; one that fails passes only with weight zero; one
that has no value never lets a batch pass. -/
theorem allHold_agrees_right :
    (∀ weight, allHold weight [right, right]) ∧
    (∀ weight, allHold weight [right, wrong] → weight 1 = ofNat 0) ∧
    ∀ weight, allHold weight [right, undecodable] = false := by
  have hright : right.value = some 0 := by decide +kernel
  have hwrong : wrong.value = some (-ofNat 1) := by decide +kernel
  refine ⟨(allHold_agrees [right, right]).2.1 (by simp [holds_iff, hright]), ?_, ?_⟩
  · intro weight hpass
    have hzero : allHold (fun i => if i = 1 then ofNat 0 else weight i) [right, wrong] := by
      rw [allHold, holds, value_weigh_cons, value_weigh_cons, value_weigh_nil, hright, hwrong]
      simp [Lawful.ofNat_zero]
    exact (allHold_agrees [right, wrong]).2.2 1 wrong rfl (by decide +kernel) (by decide +kernel)
      weight _ (fun i hi => (if_neg hi).symm) hpass hzero
  · exact ((allHold_agrees [right, undecodable]).1 undecodable (by simp)
      ⟨_, List.mem_singleton_self _, by decide +kernel⟩).2

end

end Covenant.Equation

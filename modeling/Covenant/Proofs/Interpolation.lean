/-
  INTERPOLATION — what `interpolate` finds, for every list of points.

  `Covenant.Proofs.Sharing` shows that through points with different abscissae there is exactly one
  polynomial with as many coefficients, and that `interpolate` finds it.  Here is the rest:

  1. **Failure** — Lagrange's formula divides by the product of the differences from every other
     abscissa, and gives up at the first point where it vanishes (`lagrange_eq_none_iff`).  It
     vanishes exactly at an abscissa that stands at another place too (`denominator_eq_zero_iff`).
  2. **`interpolate_exact`** — so there is no result exactly when two points share an abscissa, and
     otherwise the result is the one polynomial of its length through all points.  A polynomial is
     recovered from as many values as it has coefficients, with the zeros at its end.
-/
import Covenant.Proofs.Sharing
import Covenant.Proofs.Suite.Residues

namespace Covenant.Polynomial

open Suite

section

variable [Suite]

/-- Points at two different places of the list have one abscissa. -/
def SharedAbscissa (points : List (Scalar × Scalar)) : Prop :=
  ∃ (i j : Nat) (p q : Scalar × Scalar),
    i < j ∧ points[i]? = some p ∧ points[j]? = some q ∧ p.1 = q.1

/-- No abscissa is shared exactly when the list of abscissae has no duplicates. -/
theorem not_sharedAbscissa_iff {points : List (Scalar × Scalar)} :
    ¬SharedAbscissa points ↔ (points.map Prod.fst).Nodup := by
  rw [List.Nodup, List.pairwise_iff_getElem]
  constructor
  · intro h i j hi hj hij heq
    rw [List.length_map] at hi hj
    rw [List.getElem_map, List.getElem_map] at heq
    exact h ⟨i, j, points[i], points[j], hij, List.getElem?_eq_getElem hi,
      List.getElem?_eq_getElem hj, heq⟩
  · rintro h ⟨i, j, p, q, hij, hi, hj, heq⟩
    obtain ⟨hi', rfl⟩ := List.getElem?_eq_some_iff.1 hi
    obtain ⟨hj', rfl⟩ := List.getElem?_eq_some_iff.1 hj
    have hdiffer := h i j (by simpa using hi') (by simpa using hj') hij
    rw [List.getElem_map, List.getElem_map] at hdiffer
    exact hdiffer heq

/-! ## Failure -/

/-- Lagrange's formula gives up exactly when some denominator vanishes. -/
theorem lagrange_eq_none_iff {xs all acc : List Scalar} {i : Nat}
    {rest : List (Scalar × Scalar)} : lagrange xs all i rest acc = none ↔
      ∃ k p, rest[k]? = some p ∧ denominator xs (i + k) p.1 = 0 := by
  induction rest generalizing i acc with
  | nil => simp [lagrange]
  | cons p rest ih =>
    obtain ⟨x, y⟩ := p
    rw [lagrange]
    -- a zero denominator here ends the loop; otherwise positions in the rest are one lower
    by_cases hd : denominator xs i x = 0
    · rw [if_pos hd]
      exact iff_of_true rfl ⟨0, (x, y), rfl, hd⟩
    · rw [if_neg hd, ih]
      constructor
      · rintro ⟨k, p, hp, hzero⟩
        exact ⟨k + 1, p, hp, by rwa [Nat.add_right_comm] at hzero⟩
      · rintro ⟨k, p, hp, hzero⟩
        cases k with
        | zero =>
          cases hp
          exact absurd hzero hd
        | succ k => exact ⟨k, p, hp, by rwa [Nat.add_right_comm]⟩

variable [Lawful]

/-- The denominator of a point vanishes when its abscissa stands at another place too. -/
theorem denominator_eq_zero_iff {xs : List Scalar} {i : Nat} {x : Scalar} :
    denominator xs i x = 0 ↔ ∃ j, j ≠ i ∧ xs[j]? = some x := by
  have hproduct : denominator xs i x = ((xs.eraseIdx i).map fun y => x - y).prod := by
    rw [denominator, Suite.product, List.prod_eq_foldl]
  rw [hproduct, List.prod_eq_zero_iff, List.mem_map, ← List.mem_eraseIdx_iff_getElem?]
  constructor
  · rintro ⟨y, hy, hzero⟩
    exact sub_eq_zero.1 hzero ▸ hy
  · intro hx
    exact ⟨x, hx, sub_self x⟩

/-- **Failure**: there is no result exactly when two points share an abscissa. -/
theorem interpolate_eq_none_iff {points : List (Scalar × Scalar)} :
    interpolate points = none ↔ SharedAbscissa points := by
  have hplace {j : Nat} {x : Scalar} : (points.map Prod.fst)[j]? = some x ↔
      ∃ q, points[j]? = some q ∧ q.1 = x := by
    rw [List.getElem?_map, Option.map_eq_some_iff]
  simp only [interpolate, Option.map_eq_none_iff, lagrange_eq_none_iff, Nat.zero_add,
    denominator_eq_zero_iff, hplace]
  constructor
  · rintro ⟨k, p, hp, j, hne, q, hq, heq⟩
    rcases Nat.lt_or_gt_of_ne hne with hlt | hgt
    · exact ⟨j, k, q, p, hlt, hq, hp, heq⟩
    · exact ⟨k, j, p, q, hgt, hp, hq, heq.symm⟩
  · rintro ⟨i, j, p, q, hij, hp, hq, heq⟩
    exact ⟨i, p, hp, j, Nat.ne_of_gt hij, q, hq, heq.symm⟩

/-! ## Exactness -/

/-- **Interpolation is exact.**  It fails exactly when two points share an abscissa; otherwise it
returns a polynomial with as many coefficients as there are points, which passes through all of
them, and every such polynomial is this one.  So a polynomial is recovered, coefficient by
coefficient, from its values at as many different abscissae. -/
theorem interpolate_exact (points : List (Scalar × Scalar)) :
    (interpolate points = none ↔ SharedAbscissa points) ∧
    (¬SharedAbscissa points → ∃ f, interpolate points = some f ∧
      f.coefficients.length = points.length ∧ (∀ p ∈ points, f.eval p.1 = p.2) ∧
      ∀ g : Polynomial, g.coefficients.length = points.length →
        (∀ p ∈ points, g.eval p.1 = p.2) → g = f) ∧
    ∀ (f : Polynomial) (xs : List Scalar), xs.Nodup → xs.length = f.coefficients.length →
      interpolate (xs.map fun x => (x, f.eval x)) = some f := by
  refine ⟨interpolate_eq_none_iff, fun hshared => ?_, fun f xs hxs hlen => ?_⟩
  · have hnodup := not_sharedAbscissa_iff.1 hshared
    obtain ⟨f, hf, hlen, hall⟩ := exists_interpolate hnodup
    refine ⟨f, hf, hlen, hall, fun g hglen hgall => ?_⟩
    have hg := (interpolate_eq_some_iff hnodup).2 ⟨hglen, hgall⟩
    exact Option.some.inj (hg.symm.trans hf)
  · -- the points of `f` stand over the abscissae that were asked for
    have habscissae : (xs.map fun x => (x, f.eval x)).map Prod.fst = xs := by
      rw [List.map_map]
      exact List.map_id xs
    refine (interpolate_eq_some_iff (habscissae.symm ▸ hxs)).2 ⟨by rw [List.length_map, hlen], ?_⟩
    intro p hp
    obtain ⟨x, -, rfl⟩ := List.mem_map.1 hp
    rfl

end

section

attribute [local instance] Suite.residues Suite.lawful_residues

/-- The polynomial `3 + 2x`, written with a zero for `x²`. -/
def padded : Polynomial := ⟨[ofNat 3, ofNat 2, ofNat 0]⟩

/-- Through three points there is a polynomial with three coefficients; three values of
`3 + 2x + 0x²` give it back with its zero; and where the third point stands above the first one,
there is none. -/
theorem interpolate_exact_padded :
    (∃ f, interpolate [(ofNat 4, ofNat 11), (ofNat 1, ofNat 5), (ofNat 9, ofNat 12)] = some f ∧
      f.coefficients.length = 3 ∧ f.eval (ofNat 9) = ofNat 12) ∧
    interpolate ([ofNat 4, ofNat 1, ofNat 9].map fun x => (x, padded.eval x)) = some padded ∧
    interpolate [(ofNat 4, ofNat 11), (ofNat 1, ofNat 5), (ofNat 4, ofNat 12)] = none := by
  obtain ⟨-, hfound, hrecovered⟩ :=
    interpolate_exact [(ofNat 4, ofNat 11), (ofNat 1, ofNat 5), (ofNat 9, ofNat 12)]
  obtain ⟨f, hf, hlen, hall, -⟩ := hfound (not_sharedAbscissa_iff.2 (by decide))
  refine ⟨⟨f, hf, hlen, hall (ofNat 9, ofNat 12) (by simp)⟩,
    hrecovered padded _ (by decide) rfl, (interpolate_exact _).1.2 ?_⟩
  exact ⟨0, 2, (ofNat 4, ofNat 11), (ofNat 4, ofNat 12), by decide, rfl, rfl, rfl⟩

end

end Covenant.Polynomial

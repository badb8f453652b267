/-
  SHARING — interpolation finds the one polynomial through given points.

  A threshold node is sound because its challenges lie on a polynomial of bounded degree, and hides
  which children were simulated because any choice of values at enough children belongs to exactly
  one such polynomial.  Both are the same fact about coefficient lists.

  1. **Formal polynomials** — a coefficient list names an element of `Scalar[X]` (`formal`), whose
     evaluation is Horner's rule; lists of one length name different polynomials.
  2. **Uniqueness** — two lists of one length that agree at as many points are equal
     (`eq_of_horner_eq`).
  3. **Lagrange's terms** — dividing the product of all roots by one of them leaves the product of
     the others (`formal_overRoot`), so each term vanishes at every point but its own.
  4. **`interpolate_eq_some_iff`** — for points with different abscissae, `interpolate` finds a
     polynomial, and it is the only one with that many coefficients through all points.
-/
import Covenant.Polynomial
import Covenant.Proofs.Suite.Lawful
import Mathlib.Algebra.Polynomial.Roots
import Mathlib.Data.List.GetD
import Mathlib.Tactic.LinearCombination

section

open scoped Polynomial

namespace Covenant.Polynomial

open Suite

variable [Suite]

/-! ## Numbers of coefficients -/

theorem length_timesRoot (root : Scalar) (cs : List Scalar) :
    (timesRoot root cs).length = cs.length + 1 := by
  simp [timesRoot]

theorem length_ofRoots (roots : List Scalar) : (ofRoots roots).length = roots.length + 1 := by
  have h (acc : List Scalar) : (roots.foldl (fun cs r => timesRoot r cs) acc).length =
      roots.length + acc.length := by
    induction roots generalizing acc with
    | nil => simp
    | cons r roots ih => rw [List.foldl_cons, ih, length_timesRoot, List.length_cons]; omega
  exact h [1]

theorem length_overRoot (root : Scalar) (cs : List Scalar) :
    (overRoot root cs).length = cs.length - 1 := by
  have h (ds : List Scalar) :
      (ds.foldr (fun c out => (c + out.headD 0 * root) :: out) []).length = ds.length := by
    induction ds with
    | nil => rfl
    | cons d ds ih => rw [List.foldr_cons, List.length_cons, ih, List.length_cons]
  rw [overRoot, h, List.length_tail]

theorem length_addScaled {w : Scalar} {acc basis : List Scalar}
    (hlen : acc.length = basis.length) : (addScaled w acc basis).length = acc.length := by
  simp [addScaled, hlen]

variable [Lawful]

/-- The value at zero is the constant term. -/
theorem eval_zero (f : Polynomial) : f.eval 0 = f.coefficients.headD 0 := by
  obtain ⟨cs⟩ := f
  cases cs <;> simp [Polynomial.eval, Polynomial.horner]

/-! ## Coefficient lists as formal polynomials -/

/-- The polynomial with the given coefficients, constant term first. -/
noncomputable def formal : List Scalar → Scalar[X]
  | [] => 0
  | c :: cs => formal cs * Polynomial.X + Polynomial.C c

theorem eval_formal (cs : List Scalar) (x : Scalar) : (formal cs).eval x = horner cs x := by
  induction cs with
  | nil => simp [formal, horner]
  | cons c cs ih => simp [formal, horner, ih]

theorem coeff_formal (cs : List Scalar) (i : Nat) : (formal cs).coeff i = cs.getD i 0 := by
  induction cs generalizing i with
  | nil => simp [formal]
  | cons c cs ih => cases i <;> simp [formal, ih, Polynomial.coeff_C]

/-- Lists of one length name different polynomials. -/
theorem formal_injective {cs ds : List Scalar} (hlen : cs.length = ds.length)
    (h : formal cs = formal ds) : cs = ds := by
  refine List.ext_getElem hlen fun i hi hi' => ?_
  have hcoeff := congrArg (fun f : Scalar[X] => f.coeff i) h
  simpa [coeff_formal, List.getD_eq_getElem?_getD, List.getElem?_eq_getElem, hi, hi'] using hcoeff

theorem natDegree_formal_le (cs : List Scalar) : (formal cs).natDegree ≤ cs.length - 1 := by
  refine Polynomial.natDegree_le_iff_coeff_eq_zero.2 fun i hi => ?_
  rw [coeff_formal, List.getD_eq_default _ _ (by omega)]

/-- **Uniqueness**: coefficient lists of one length are equal when they agree at as many different
abscissae. -/
theorem eq_of_horner_eq {cs ds xs : List Scalar} (hlen : cs.length = ds.length)
    (hxs : xs.Nodup) (hcount : cs.length ≤ xs.length)
    (h : ∀ x ∈ xs, horner cs x = horner ds x) : cs = ds := by
  rcases Nat.eq_zero_or_pos cs.length with hzero | hpos
  · obtain rfl := List.length_eq_zero_iff.1 hzero
    exact (List.length_eq_zero_iff.1 hlen.symm).symm
  refine formal_injective hlen (sub_eq_zero.1 ?_)
  -- the difference has more roots than its degree allows
  refine Polynomial.eq_zero_of_natDegree_lt_card_of_eval_eq_zero' _ xs.toFinset (fun x hx => ?_) ?_
  · rw [Polynomial.eval_sub, eval_formal, eval_formal, h x (List.mem_toFinset.1 hx), sub_self]
  · rw [List.toFinset_card_of_nodup hxs]
    have hdegree := Polynomial.natDegree_sub_le (formal cs) (formal ds)
    have hcs := natDegree_formal_le cs
    have hds := natDegree_formal_le ds
    omega

/-! ## The terms of Lagrange's formula -/

/-- Adding two lists of one length. -/
theorem formal_zipWith_add {cs ds : List Scalar} (hlen : cs.length = ds.length) :
    formal (List.zipWith (· + ·) cs ds) = formal cs + formal ds := by
  induction cs generalizing ds with
  | nil => simp [List.length_eq_zero_iff.1 hlen.symm, formal]
  | cons c cs ih =>
    obtain ⟨d, ds, rfl⟩ := List.exists_cons_of_length_eq_add_one hlen.symm
    simp only [List.zipWith_cons_cons, formal, ih (by simpa using hlen), Polynomial.C_add]
    ring

theorem formal_map_mul (w : Scalar) (cs : List Scalar) :
    formal (cs.map fun c => w * c) = Polynomial.C w * formal cs := by
  induction cs with
  | nil => simp [formal]
  | cons c cs ih =>
    simp only [List.map_cons, formal, ih, Polynomial.C_mul]
    ring

theorem formal_concat_zero (cs : List Scalar) : formal (cs ++ [0]) = formal cs := by
  induction cs with
  | nil => simp [formal]
  | cons c cs ih => simp [formal, ih]

theorem formal_timesRoot (root : Scalar) (cs : List Scalar) :
    formal (timesRoot root cs) = formal cs * (Polynomial.X - Polynomial.C root) := by
  have hmap : (cs.map fun c => -(root * c)) = cs.map fun c => -root * c := by
    simp [neg_mul]
  rw [timesRoot, formal_zipWith_add (by simp), formal_concat_zero, hmap, formal_map_mul]
  simp only [formal, Polynomial.C_neg, Polynomial.C_0]
  ring

/-- The product of `X - root` over some roots. -/
noncomputable def rootProduct (roots : List Scalar) : Scalar[X] :=
  (roots.map fun r => Polynomial.X - Polynomial.C r).prod

theorem formal_ofRoots (roots : List Scalar) : formal (ofRoots roots) = rootProduct roots := by
  have h (acc : List Scalar) : formal (roots.foldl (fun cs r => timesRoot r cs) acc) =
      formal acc * rootProduct roots := by
    induction roots generalizing acc with
    | nil => simp [rootProduct]
    | cons r roots ih =>
      rw [List.foldl_cons, ih, formal_timesRoot, rootProduct, rootProduct, List.map_cons,
        List.prod_cons, mul_assoc]
  rw [ofRoots, h [1]]
  simp [formal]

/-- The quotient that `overRoot` computes begins with the value of the divided tail at the root. -/
theorem headD_overRoot (root : Scalar) (cs : List Scalar) :
    (cs.foldr (fun c out => (c + out.headD 0 * root) :: out) []).headD 0 = horner cs root := by
  induction cs with
  | nil => rfl
  | cons c cs ih => rw [List.foldr_cons, List.headD_cons, ih, horner, add_comm]

/-- **Synthetic division**: the quotient by `X - root` leaves the value at the root. -/
theorem formal_overRoot_mul (root : Scalar) (cs : List Scalar) :
    formal (overRoot root cs) * (Polynomial.X - Polynomial.C root) +
      Polynomial.C (horner cs root) = formal cs := by
  cases cs with
  | nil => simp [overRoot, formal, horner]
  | cons c cs =>
    -- from the top coefficient down, the head of what is collected so far is the value at the root
    have h : formal (cs.foldr (fun c out => (c + out.headD 0 * root) :: out) []) *
        (Polynomial.X - Polynomial.C root) + Polynomial.C (horner cs root * root) =
          formal cs * Polynomial.X := by
      induction cs with
      | nil => simp [formal, horner]
      | cons d cs ih =>
        rw [List.foldr_cons, headD_overRoot]
        simp only [formal, horner, Polynomial.C_add, Polynomial.C_mul] at ih ⊢
        linear_combination Polynomial.X * ih
    simp only [overRoot, List.tail_cons, formal, horner, Polynomial.C_add] at h ⊢
    linear_combination h

/-- Dividing a product of roots by one of them leaves the product of the others. -/
theorem formal_overRoot (done rest : List Scalar) (x : Scalar) :
    formal (overRoot x (ofRoots (done ++ x :: rest))) = rootProduct (done ++ rest) := by
  have hall : rootProduct (done ++ x :: rest) =
      rootProduct (done ++ rest) * (Polynomial.X - Polynomial.C x) := by
    simp only [rootProduct, List.map_append, List.map_cons, List.prod_append, List.prod_cons]
    ring
  have hroot : horner (ofRoots (done ++ x :: rest)) x = 0 := by
    rw [← eval_formal, formal_ofRoots, hall]
    simp
  have hdiv := formal_overRoot_mul x (ofRoots (done ++ x :: rest))
  rw [hroot, Polynomial.C_0, add_zero, formal_ofRoots, hall] at hdiv
  exact mul_right_cancel₀ (Polynomial.X_sub_C_ne_zero x) hdiv

theorem eval_rootProduct (roots : List Scalar) (x : Scalar) :
    (rootProduct roots).eval x = (roots.map fun r => x - r).prod := by
  rw [rootProduct, Polynomial.eval_list_prod]
  simp [Function.comp_def]

theorem denominator_eq (done rest : List Scalar) (x : Scalar) :
    denominator (done ++ x :: rest) done.length x = (rootProduct (done ++ rest)).eval x := by
  rw [denominator, List.eraseIdx_append_of_length_le (Nat.le_refl _), Nat.sub_self,
    List.eraseIdx_cons_zero, eval_rootProduct, Suite.product, List.prod_eq_foldl]

/-- The product of the differences from other abscissae does not vanish. -/
theorem eval_rootProduct_ne_zero {roots : List Scalar} {x : Scalar} (hx : x ∉ roots) :
    (rootProduct roots).eval x ≠ 0 := by
  rw [eval_rootProduct, Ne, List.prod_eq_zero_iff]
  simp only [List.mem_map, not_exists, not_and]
  rintro r hr h
  exact hx (sub_eq_zero.1 h ▸ hr)

theorem eval_rootProduct_eq_zero {roots : List Scalar} {x : Scalar} (hx : x ∈ roots) :
    (rootProduct roots).eval x = 0 := by
  rw [eval_rootProduct, List.prod_eq_zero_iff]
  exact List.mem_map.2 ⟨x, hx, sub_self x⟩

/-! ## Interpolation -/

theorem horner_addScaled {w : Scalar} {acc basis : List Scalar}
    (hlen : acc.length = basis.length) (x : Scalar) :
    horner (addScaled w acc basis) x = horner acc x + w * horner basis x := by
  have hmap : addScaled w acc basis = List.zipWith (· + ·) acc (basis.map fun c => w * c) := by
    rw [addScaled, List.zipWith_map_right]
  rw [hmap, ← eval_formal, formal_zipWith_add (by simp [hlen]), formal_map_mul]
  simp [eval_formal]

/-- What is left of Lagrange's formula turns a polynomial through the points done so far, with value
zero at the others, into one through all points. -/
theorem exists_lagrange (done rest : List (Scalar × Scalar)) (acc : List Scalar)
    (hnodup : ((done ++ rest).map Prod.fst).Nodup) (hlen : acc.length = (done ++ rest).length)
    (hdone : ∀ p ∈ done, horner acc p.1 = p.2) (hrest : ∀ p ∈ rest, horner acc p.1 = 0) :
    ∃ cs, lagrange ((done ++ rest).map Prod.fst) (ofRoots ((done ++ rest).map Prod.fst))
        done.length rest acc = some cs ∧
      cs.length = (done ++ rest).length ∧ ∀ p ∈ done ++ rest, horner cs p.1 = p.2 := by
  induction rest generalizing done acc with
  | nil => exact ⟨acc, rfl, hlen, by simpa using hdone⟩
  | cons p rest ih =>
    obtain ⟨x, y⟩ := p
    have hxs : (done ++ (x, y) :: rest).map Prod.fst =
        done.map Prod.fst ++ x :: rest.map Prod.fst := by simp
    have hother : x ∉ done.map Prod.fst ++ rest.map Prod.fst := by
      rw [hxs, List.nodup_middle] at hnodup
      exact (List.nodup_cons.1 hnodup).1
    have hd : denominator ((done ++ (x, y) :: rest).map Prod.fst) done.length x =
        (rootProduct (done.map Prod.fst ++ rest.map Prod.fst)).eval x := by
      rw [hxs, ← denominator_eq, List.length_map]
    have hne : denominator ((done ++ (x, y) :: rest).map Prod.fst) done.length x ≠ 0 :=
      hd ▸ eval_rootProduct_ne_zero hother
    have hbasis (z : Scalar) :
        horner (overRoot x (ofRoots ((done ++ (x, y) :: rest).map Prod.fst))) z =
          (rootProduct (done.map Prod.fst ++ rest.map Prod.fst)).eval z := by
      rw [← eval_formal, hxs, formal_overRoot]
    have hbasislen : acc.length =
        (overRoot x (ofRoots ((done ++ (x, y) :: rest).map Prod.fst))).length := by
      rw [length_overRoot, length_ofRoots, List.length_map, hlen, Nat.add_sub_cancel]
    rw [lagrange, if_neg hne]
    -- the list of points stays as it is while the border between done and left moves by one
    have hlist : done ++ (x, y) :: rest = (done ++ [(x, y)]) ++ rest := by simp
    rw [hlist] at hnodup hlen hne hbasis hbasislen hd ⊢
    have hcount : done.length + 1 = (done ++ [(x, y)]).length := by simp
    rw [hcount]
    refine ih (done ++ [(x, y)]) _ hnodup (by rw [length_addScaled hbasislen, hlen]) ?_ ?_
    · intro p hp
      -- the new term vanishes at the points that are done, and sets the value at its own
      rw [horner_addScaled hbasislen, hbasis]
      rcases List.mem_append.1 hp with hp | hp
      · rw [hdone p hp, eval_rootProduct_eq_zero
          (List.mem_append_left _ (List.mem_map_of_mem hp)), mul_zero, add_zero]
      · obtain rfl := List.mem_singleton.1 hp
        rw [hrest _ List.mem_cons_self, ← hd, mul_assoc, mul_comm (inverse _),
          Lawful.mul_inverse _ hne, mul_one, zero_add]
    · intro p hp
      rw [horner_addScaled hbasislen, hbasis, hrest p (List.mem_cons_of_mem _ hp),
        eval_rootProduct_eq_zero (List.mem_append_right _ (List.mem_map_of_mem hp)), mul_zero,
        add_zero]

theorem horner_zeros {α : Type} (xs : List α) (x : Scalar) : horner (xs.map fun _ => 0) x = 0 := by
  induction xs with
  | nil => rfl
  | cons _ xs ih => rw [List.map_cons, horner, ih, zero_mul, zero_add]

/-- Through points with different abscissae passes a polynomial with as many coefficients. -/
theorem exists_interpolate {points : List (Scalar × Scalar)}
    (hnodup : (points.map Prod.fst).Nodup) : ∃ f, interpolate points = some f ∧
      f.coefficients.length = points.length ∧ ∀ p ∈ points, f.eval p.1 = p.2 := by
  obtain ⟨cs, hcs, hlen, hall⟩ := exists_lagrange [] points (points.map fun _ => 0) hnodup
    (by simp) (by simp) fun p _ => horner_zeros points p.1
  refine ⟨⟨cs⟩, ?_, hlen, hall⟩
  rw [interpolate, show lagrange (points.map Prod.fst) (ofRoots (points.map Prod.fst)) 0 points
    (points.map fun _ => 0) = some cs from hcs, Option.map_some]

/-- **Interpolation**: through points with different abscissae there is exactly one polynomial with
as many coefficients, and `interpolate` finds it. -/
theorem interpolate_eq_some_iff {points : List (Scalar × Scalar)}
    (hnodup : (points.map Prod.fst).Nodup) {f : Polynomial} :
    interpolate points = some f ↔
      f.coefficients.length = points.length ∧ ∀ p ∈ points, f.eval p.1 = p.2 := by
  obtain ⟨g, hg, hlen, hall⟩ := exists_interpolate hnodup
  rw [hg, Option.some.injEq]
  constructor
  · rintro rfl
    exact ⟨hlen, hall⟩
  · rintro ⟨hflen, hfall⟩
    obtain ⟨cs⟩ := g
    obtain ⟨ds⟩ := f
    congr 1
    refine eq_of_horner_eq (hlen.trans hflen.symm) hnodup (by simp [hlen]) fun x hx => ?_
    obtain ⟨p, hp, rfl⟩ := List.mem_map.1 hx
    exact (hall p hp).trans (hfall p hp).symm

end Covenant.Polynomial

end

/-
  SETTLING — the challenges of real children complete those that were chosen before.

  A real node has chosen challenges for the children it simulates and learns its own challenge last.
  What the other children get is then determined.  Given as many open places as the connective
  requires, `settle` fills them in such a way that the node shares its challenge by the rule, and
  there is no other way (`settle_iff`):

  * a conjunction has only open places, which all get its challenge;
  * a disjunction has one, which gets what the sum leaves over;
  * a threshold node of `n` children has `k`, so that the other `n - k` challenges and its own are
    as many values as determine a polynomial of degree `n - k`.
-/
import Covenant.Proofs.Protocol.Accepting

namespace Covenant

open Suite

variable [Suite]

/-! ## Open places -/

/-- The challenges with the open places filled in. -/
def merge (os : List (Option Scalar)) (es : List Scalar) : List Scalar :=
  List.zipWith (fun o e => o.getD e) os es

/-- The challenges are the chosen ones, wherever one was chosen. -/
def Agree (os : List (Option Scalar)) (es : List Scalar) : Prop :=
  List.Forall₂ (fun o e => ∀ x, o = some x → x = e) os es

theorem Agree.length_eq {os : List (Option Scalar)} {es : List Scalar} (h : Agree os es) :
    os.length = es.length :=
  List.Forall₂.length_eq h

theorem agree_iff_merge {os : List (Option Scalar)} {es : List Scalar} :
    Agree os es ↔ os.length = es.length ∧ merge os es = es := by
  induction os generalizing es with
  | nil => cases es <;> simp [Agree, merge]
  | cons o os ih =>
    cases es with
    | nil => simp [Agree]
    | cons e es =>
      have hhead : (∀ x, o = some x → x = e) ↔ o.getD e = e := by cases o <;> simp
      have htail := @ih es
      simp only [Agree, merge, List.forall₂_cons, List.zipWith_cons_cons, List.length_cons,
        List.cons.injEq, hhead] at htail ⊢
      rw [htail, Nat.add_right_cancel_iff]
      tauto

theorem agree_merge {os : List (Option Scalar)} {es : List Scalar}
    (hlen : os.length = es.length) : Agree os (merge os es) := by
  induction os generalizing es with
  | nil => simp [Agree, merge]
  | cons o os ih =>
    obtain ⟨e, es, rfl⟩ := List.exists_cons_of_length_eq_add_one hlen.symm
    refine List.Forall₂.cons ?_ (ih (by simpa using hlen))
    rintro x rfl
    rfl

theorem merge_map_const {α : Type} (os : List (Option Scalar)) (as : List α) (r : Scalar)
    (hlen : as.length = os.length) :
    merge os (as.map fun _ => r) = os.map fun o => o.getD r := by
  induction os generalizing as with
  | nil => rfl
  | cons o os ih =>
    obtain ⟨a, as, rfl⟩ := List.exists_cons_of_length_eq_add_one hlen
    have hrest := ih as (by simpa using hlen)
    simp only [merge, List.map_cons, List.zipWith_cons_cons] at hrest ⊢
    rw [hrest]

/-- With no open place there is nothing to fill in. -/
theorem Agree.eq_of_closed {os : List (Option Scalar)} {es : List Scalar} (h : Agree os es)
    (hclosed : os.countP Option.isNone = 0) (r : Scalar) : es = os.map fun o => o.getD r := by
  induction h with
  | nil => rfl
  | @cons o e os es hhead _ ih =>
    cases o with
    | none => simp at hclosed
    | some x =>
      rw [ih (by simpa using hclosed), ← hhead x rfl]
      simp

/-- A single open place can be filled with any one scalar. -/
theorem Agree.exists_of_one_open {os : List (Option Scalar)} {es : List Scalar}
    (h : Agree os es) (hopen : os.countP Option.isNone = 1) :
    ∃ r, es = os.map fun o => o.getD r := by
  induction h with
  | nil => simp at hopen
  | @cons o e os es hhead htail ih =>
    cases o with
    | none =>
      have hclosed := Agree.eq_of_closed htail (by simpa using hopen) e
      exact ⟨e, by rw [List.map_cons, ← hclosed]; rfl⟩
    | some x =>
      obtain ⟨r, hr⟩ := ih (by simpa using hopen)
      exact ⟨r, by rw [List.map_cons, ← hr, ← hhead x rfl]; rfl⟩

/-- All places are open when there are as many as places. -/
theorem eq_none_of_all_open {os : List (Option Scalar)}
    (h : os.countP Option.isNone = os.length) : os = os.map fun _ => none := by
  induction os with
  | nil => rfl
  | cons o os ih =>
    have hall := List.countP_eq_length.1 h
    have ho : o = none := by simpa using hall o List.mem_cons_self
    have hrest : os.countP Option.isNone = os.length :=
      List.countP_eq_length.2 fun o ho => hall o (List.mem_cons_of_mem _ ho)
    rw [List.map_cons, ← ih hrest, ho]

theorem sum_map_getD [Lawful] (os : List (Option Scalar)) (r : Scalar) :
    (os.map fun o => o.getD r).sum =
      (os.filterMap id).sum + os.countP Option.isNone * r := by
  induction os with
  | nil => simp
  | cons o os ih =>
    rw [List.map_cons, List.sum_cons, ih]
    cases o with
    | none => simp [add_mul]; ring
    | some x => simp [add_assoc]

theorem foldl_sub [Lawful] (xs : List Scalar) (e : Scalar) :
    xs.foldl (· - ·) e = e - xs.sum := by
  induction xs generalizing e with
  | nil => simp
  | cons x xs ih => rw [List.foldl_cons, ih, List.sum_cons, sub_sub]

/-! ## The points that finished children fix -/

namespace Draft

/-- The challenges that were chosen for children, one place for each. -/
def chosen (ds : List Draft) : List (Option Scalar) := ds.map challenge?

@[simp] theorem length_chosen (ds : List Draft) : (chosen ds).length = ds.length :=
  List.length_map _

theorem length_fixedPoints (j : Nat) (ds : List Draft) :
    (fixedPoints j ds).length + (chosen ds).countP Option.isNone = ds.length := by
  induction ds generalizing j with
  | nil => rfl
  | cons d ds ih =>
    have hrest := ih (j + 1)
    cases hd : d.challenge? with
    | none =>
      simp only [fixedPoints, chosen, List.map_cons, hd, List.countP_cons, Option.isNone_none,
        if_true, List.length_cons] at hrest ⊢
      omega
    | some e =>
      simp only [fixedPoints, chosen, List.map_cons, hd, List.countP_cons, Option.isNone_some,
        Bool.false_eq_true, if_false, List.length_cons] at hrest ⊢
      omega

/-- The abscissae are among those of the children, in order. -/
theorem fixedPoints_sublist (j : Nat) (ds : List Draft) :
    ((fixedPoints j ds).map Prod.fst).Sublist
      ((List.range' (j + 1) ds.length).map (Suite.ofNat : Nat → Scalar)) := by
  induction ds generalizing j with
  | nil => exact List.Sublist.slnil
  | cons d ds ih =>
    rw [List.length_cons, List.range'_succ, List.map_cons]
    cases hd : d.challenge? with
    | none => simpa only [fixedPoints, hd] using (ih (j + 1)).cons _
    | some e =>
      simp only [fixedPoints, hd, List.map_cons]
      exact (ih (j + 1)).cons_cons _

/-- A polynomial passes through the fixed points when its values at the children agree with the
chosen challenges. -/
theorem passes_fixedPoints_iff (f : Polynomial) (j : Nat) (ds : List Draft) :
    (∀ p ∈ fixedPoints j ds, f.eval p.1 = p.2) ↔
      Agree (chosen ds) ((List.range' j ds.length).map fun i =>
        f.eval (Polynomial.childPoint i)) := by
  induction ds generalizing j with
  | nil => simp [fixedPoints, Agree, chosen]
  | cons d ds ih =>
    have hrest := ih (j + 1)
    simp only [Agree, chosen, List.map_cons, List.length_cons, List.range'_succ,
      List.forall₂_cons] at hrest ⊢
    rw [← hrest]
    cases hd : d.challenge? with
    | none => simp [fixedPoints, hd]
    | some e => simp [fixedPoints, hd, eq_comm]

theorem nodup_fixedPoints [Lawful] (e : Scalar) {ds : List Draft}
    (hmax : ds.length ≤ maxChildren) :
    (((0, e) :: fixedPoints 0 ds).map Prod.fst).Nodup := by
  have hsublist : (((0, e) :: fixedPoints 0 ds).map Prod.fst).Sublist
      ((List.range' 0 (ds.length + 1)).map (Suite.ofNat : Nat → Scalar)) := by
    rw [List.map_cons, List.range'_succ, List.map_cons, Lawful.ofNat_zero]
    exact (fixedPoints_sublist 0 ds).cons_cons _
  refine hsublist.nodup (nodup_ofNat List.nodup_range' fun i hi => ?_)
  have hlt := (List.mem_range'_1.1 hi).2
  omega

/-! ## Settling -/

/-- A polynomial through the challenge at zero is known by its further coefficients. -/
theorem eq_withConstant [Lawful] {f : Polynomial} {e : Scalar}
    (hpos : 0 < f.coefficients.length) (h : f.eval 0 = e) :
    f = Polynomial.withConstant e f.coefficients.tail := by
  obtain ⟨cs⟩ := f
  rw [Polynomial.eval_zero] at h
  cases cs with
  | nil => simp at hpos
  | cons c cs => subst h; rfl

theorem length_of_settle {c : Connective} {e : Scalar} {ds : List Draft} {es fs : List Scalar}
    (h : settle c e ds = .ok (es, fs)) : es.length = ds.length := by
  cases c with
  | all => cases h; simp
  | any =>
    simp only [settle] at h
    split at h
    · cases h
    · cases h; simp
  | atLeast k =>
    simp only [settle] at h
    split at h
    · cases h
    · cases h; simp

/-- A disjunction with an open place has a child without a challenge. -/
theorem not_all_chosen {ds : List Draft} (hopen : (chosen ds).countP Option.isNone = 1) :
    ¬(ds.all fun d => d.challenge?.isSome) = true := by
  intro hall
  have hzero : (chosen ds).countP Option.isNone = 0 := by
    refine List.countP_eq_zero.2 fun o ho => ?_
    obtain ⟨d, hd, rfl⟩ := List.mem_map.1 ho
    simpa [Option.isSome_iff_ne_none] using List.all_eq_true.1 hall d hd
  rw [hzero] at hopen
  cases hopen

/-- **Settling** completes the chosen challenges to challenges that are shared by the rule, and
there is no other way to do so. -/
theorem settle_iff [Lawful] {c : Connective} {e : Scalar} {ds : List Draft} {es fs : List Scalar}
    (hallows : c.Allows ds.length)
    (hopen : (chosen ds).countP Option.isNone = c.required ds.length) :
    (∃ settled, settle c e ds = .ok (settled, fs) ∧ es = merge (chosen ds) settled) ↔
      c.SharesTo e fs es ∧ Agree (chosen ds) es := by
  cases c with
  | all =>
    -- a conjunction requires all children, so all are open and get the challenge itself
    have hnone := eq_none_of_all_open (hopen.trans (length_chosen ds).symm)
    simp only [settle, Except.ok.injEq, Prod.mk.injEq, Connective.SharesTo]
    constructor
    · rintro ⟨_, ⟨rfl, rfl⟩, rfl⟩
      refine ⟨⟨rfl, fun x hx => ?_⟩, agree_merge (by simp)⟩
      rw [merge_map_const _ _ _ (by simp), hnone] at hx
      obtain ⟨o, ho, rfl⟩ := List.mem_map.1 hx
      obtain ⟨_, -, rfl⟩ := List.mem_map.1 ho
      rfl
    · rintro ⟨⟨rfl, hall⟩, hagree⟩
      refine ⟨_, ⟨rfl, rfl⟩, ?_⟩
      rw [merge_map_const _ _ _ (by simp), hnone, List.map_map]
      exact List.ext_getElem (by simp [← hagree.length_eq]) fun i hi _ => by
        simpa using hall _ (List.getElem_mem hi)
  | any =>
    -- a disjunction leaves one child open, which gets what the others leave of the sum
    have hsome := not_all_chosen hopen
    have hgiven : ds.filterMap challenge? = (chosen ds).filterMap id := by
      rw [chosen, List.filterMap_map, Function.id_comp]
    have hone : (chosen ds).countP Option.isNone = 1 := hopen
    simp only [settle, if_neg hsome, Except.ok.injEq, Prod.mk.injEq, Connective.SharesTo, hgiven,
      foldl_sub, sum_eq]
    constructor
    · rintro ⟨_, ⟨rfl, rfl⟩, rfl⟩
      refine ⟨⟨rfl, ?_⟩, agree_merge (by simp)⟩
      rw [merge_map_const _ _ _ (by simp), sum_map_getD, hone]
      simp
    · rintro ⟨⟨rfl, hsum⟩, hagree⟩
      obtain ⟨r, rfl⟩ := hagree.exists_of_one_open hone
      rw [sum_map_getD, hone, Nat.cast_one, one_mul] at hsum
      refine ⟨_, ⟨rfl, rfl⟩, ?_⟩
      rw [merge_map_const _ _ _ (by simp), ← hsum, add_sub_cancel_left]
  | atLeast k =>
    -- a threshold node has as many points given, with the one at zero, as coefficients to find
    have hk : k ≤ ds.length := hallows.required_le
    have hcount := length_fixedPoints 0 ds
    rw [hopen] at hcount
    have hinterpolate (f : Polynomial) := Polynomial.interpolate_eq_some_iff
      (nodup_fixedPoints e hallows.le_maxChildren) (f := f)
    simp only [List.length_cons, List.forall_mem_cons, passes_fixedPoints_iff, ←
      List.range_eq_range'] at hinterpolate
    constructor
    · rintro ⟨settled, hsettle, rfl⟩
      simp only [settle] at hsettle
      split at hsettle
      · cases hsettle
      · rename_i f hf
        cases hsettle
        obtain ⟨hlen, hzero, hagree⟩ := (hinterpolate f).1 hf
        have hconstant := eq_withConstant (by omega) hzero
        rw [(agree_iff_merge.1 hagree).2]
        refine ⟨⟨?_, ?_⟩, hagree⟩
        · rw [List.length_tail, hlen, List.length_map, List.length_range, Connective.shareDegree]
          simp only [Connective.required] at hcount ⊢
          omega
        · rw [List.length_map, List.length_range, ← hconstant]
    · rintro ⟨⟨hfs, hes⟩, hagree⟩
      have hlen : es.length = ds.length := by rw [← hagree.length_eq, length_chosen]
      rw [hlen] at hfs hes
      -- the polynomial on which all challenges lie is the one through the given points
      have hf : Polynomial.interpolate ((0, e) :: fixedPoints 0 ds) =
          some (Polynomial.withConstant e fs) := by
        refine (hinterpolate _).2 ⟨?_, Polynomial.eval_zero _, hes ▸ hagree⟩
        simp only [Polynomial.withConstant, List.length_cons, hfs, Connective.shareDegree]
        simp only [Connective.required] at hcount ⊢
        omega
      refine ⟨es, ?_, ((agree_iff_merge.1 hagree).2).symm⟩
      simp only [settle, hf]
      rw [hes]
      rfl

/-- With as many open places as required, settling succeeds. -/
theorem exists_settle [Lawful] {c : Connective} (e : Scalar) {ds : List Draft}
    (hallows : c.Allows ds.length)
    (hopen : (chosen ds).countP Option.isNone = c.required ds.length) :
    ∃ es fs, settle c e ds = .ok (es, fs) := by
  cases c with
  | all => exact ⟨_, _, rfl⟩
  | any =>
    have hsome := not_all_chosen hopen
    exact ⟨_, _, if_neg hsome⟩
  | atLeast k =>
    obtain ⟨f, hf, -⟩ := Polynomial.exists_interpolate (nodup_fixedPoints e hallows.le_maxChildren)
    exact ⟨_, _, by simp only [settle, hf]; rfl⟩

end Draft

end Covenant

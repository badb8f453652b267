/-
  OUTCOME — when a sequence of steps that may fail succeeds.

  Checks, reductions, proofs and readings are sequences of steps in `Except`.  Such a sequence
  succeeds exactly when every step does (`bind_eq_ok`), which is how all later proofs take one
  apart.
-/
namespace Covenant.Outcome

variable {ε α β : Type}

theorem pure_eq (a : α) : (pure a : Except ε α) = .ok a := rfl

theorem throw_eq (e : ε) : (throw e : Except ε α) = .error e := rfl

@[simp] theorem ok_bind (a : α) (f : α → Except ε β) : (Except.ok a >>= f) = f a := rfl

@[simp] theorem error_bind (e : ε) (f : α → Except ε β) : (Except.error e >>= f) = .error e := rfl

/-- A sequence succeeds exactly when both its steps do. -/
theorem bind_eq_ok {x : Except ε α} {f : α → Except ε β} {b : β} :
    (x >>= f) = .ok b ↔ ∃ a, x = .ok a ∧ f a = .ok b := by
  cases x <;> simp

/-- A step that yields nothing. -/
theorem unit_bind_eq_ok {x : Except ε PUnit} {f : PUnit → Except ε β} {b : β} :
    (x >>= f) = .ok b ↔ x = .ok ⟨⟩ ∧ f ⟨⟩ = .ok b := by
  cases x <;> simp

/-- A check in front of a sequence lets it pass when the condition does not hold. -/
theorem check_eq_ok {c : Prop} [Decidable c] {e : ε} {f : PUnit → Except ε β} {y : Except ε β}
    {b : β} : (if c then (throw e : Except ε PUnit) >>= f else y) = .ok b ↔ ¬c ∧ y = .ok b := by
  split <;> simp_all [throw_eq]

/-- A step that only repackages its failure. -/
theorem map_eq_ok {f : α → β} {x : Except ε α} {b : β} :
    x.map f = .ok b ↔ ∃ a, x = .ok a ∧ f a = b := by
  cases x <;> simp [Except.map]

/-- A walk along a list succeeds exactly when every stop does. -/
theorem forM_eq_ok {f : α → Except ε Unit} {xs : List α} :
    xs.forM f = .ok () ↔ ∀ x ∈ xs, f x = .ok () := by
  induction xs with
  | nil => exact iff_of_true rfl (by simp)
  | cons x xs ih =>
    show (f x >>= fun _ => xs.forM f) = .ok () ↔ _
    rw [unit_bind_eq_ok, ih, List.forall_mem_cons]

/-- What a list is turned into has its length, and each item comes from one of the list. -/
theorem spec_of_mapM {f : α → Except ε β} {xs : List α} {ys : List β} (h : xs.mapM f = .ok ys) :
    ys.length = xs.length ∧ ∀ y ∈ ys, ∃ x ∈ xs, f x = .ok y := by
  induction xs generalizing ys with
  | nil =>
    cases h
    exact ⟨rfl, by simp⟩
  | cons x xs ih =>
    rw [List.mapM_cons] at h
    obtain ⟨y, hy, h⟩ := bind_eq_ok.1 h
    obtain ⟨zs, hzs, h⟩ := bind_eq_ok.1 h
    cases h
    obtain ⟨hlength, hmem⟩ := ih hzs
    refine ⟨by simp [hlength], List.forall_mem_cons.2 ⟨⟨x, by simp, hy⟩, fun z hz => ?_⟩⟩
    obtain ⟨w, hw, hwz⟩ := hmem z hz
    exact ⟨w, List.mem_cons_of_mem x hw, hwz⟩

/-- A series of additions, each with a check in front of it, succeeds exactly when every check does. -/
theorem foldlM_eq_ok {good : α → Prop} {f : β → α → Except ε β} {g : β → α → β}
    (hf : ∀ a b b', f b a = .ok b' ↔ good a ∧ b' = g b a) {as : List α} {b b' : β} :
    as.foldlM f b = .ok b' ↔ (∀ a ∈ as, good a) ∧ b' = as.foldl g b := by
  induction as generalizing b with
  | nil => simp [pure_eq, eq_comm]
  | cons a as ih =>
    rw [List.foldlM_cons, bind_eq_ok, List.forall_mem_cons, List.foldl_cons]
    constructor
    · rintro ⟨c, hc, hrest⟩
      obtain ⟨ha, rfl⟩ := (hf a b c).1 hc
      obtain ⟨has, hb'⟩ := ih.1 hrest
      exact ⟨⟨ha, has⟩, hb'⟩
    · rintro ⟨⟨ha, has⟩, hb'⟩
      exact ⟨g b a, (hf a b _).2 ⟨ha, rfl⟩, ih.2 ⟨has, hb'⟩⟩

end Covenant.Outcome

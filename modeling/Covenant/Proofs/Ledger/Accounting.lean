/-
  ACCOUNTING — the cost of a transaction is an exact sum.

  Costs are added with sums that stop at the largest 64-bit number, inputs are reduced one by one
  under what the parts leave of the ceiling, and only then is the total compared with the ceiling.
  Below the largest number none of this shows.

  1. **Saturation** — a chain of saturating sums is the exact sum cut at the largest cost
     (`foldl_addCost`), so against a smaller ceiling both answer alike.
  2. **Inputs** — reducing an input is reducing the condition of the box at its position
     (`reduceAt_eq_ok`), and what a condition comes down to does not depend on the limit it is
     reduced under (`Reduces.unique`).
  3. **`BuiltTx.reduce_accounting`** — a transaction reduces exactly when it is consistent, every
     condition reduces at all, and the exact sum stays within the ceiling.
-/
import Covenant.Ledger.Session
import Covenant.Proofs.Outcome
import Covenant.Proofs.Reduction.Limit
import Covenant.Proofs.Script.Equality
import Covenant.Suite.Standard
import Mathlib.Algebra.Order.BigOperators.Group.List
import Mathlib.Algebra.Order.Ring.Nat

namespace Covenant

/-! ## Saturating sums -/

theorem addCost_eq_min (a b : Nat) : addCost a b = min (a + b) maxCost := rfl

/-- Saturating sums of several costs saturate once. -/
theorem foldl_addCost (cs : List Nat) {a : Nat} (ha : a ≤ maxCost) :
    cs.foldl addCost a = min (a + cs.sum) maxCost := by
  induction cs generalizing a with
  | nil => simp [ha]
  | cons c cs ih =>
    rw [List.foldl_cons, addCost_eq_min, ih (Nat.min_le_right ..), List.sum_cons]
    omega

namespace BuiltTx

/-! ## The exact cost -/

/-- What the parts of a transaction cost: its inputs, data inputs and outputs, and every entry for a
token in a box spent or an output. -/
def partsCost (b : BuiltTx) : Nat :=
  b.baseCost.toNat + b.tx.inputs.length * b.parameters.inputCost.toNat +
    b.tx.dataInputs.length * b.parameters.dataInputCost.toNat +
    b.tx.outputs.length * b.parameters.outputCost.toNat +
    ((b.boxes.map fun x => x.candidate.tokens.length).sum +
      (b.tx.outputs.map fun c => c.tokens.length).sum) * b.parameters.tokenAccessCost.toNat

/-- What a transaction costs whose inputs come down to the given ones. -/
def exactCost (b : BuiltTx) (rs : List ReducedInput) : Nat :=
  b.partsCost + (rs.map fun r => r.cost.toNat).sum

theorem initialCost_eq (b : BuiltTx) : b.initialCost = min b.partsCost maxCost := by
  have hbase : b.baseCost.toNat ≤ maxCost := Nat.le_of_lt_succ b.baseCost.toNat_lt
  have hentries : b.tokenEntries = (b.boxes.map fun x => x.candidate.tokens.length).sum +
      (b.tx.outputs.map fun c => c.tokens.length).sum := by
    rw [tokenEntries, List.length_flatMap, List.length_flatMap]
  rw [initialCost, foldl_addCost _ (Nat.zero_le _)]
  simp only [unitsCost, List.sum_cons, List.sum_nil, partsCost, hentries]
  omega

/-- The cost that `reduce` totals up. -/
theorem total_eq (b : BuiltTx) (rs : List ReducedInput) :
    rs.foldl (fun n r => addCost n r.cost.toNat) b.initialCost = min (b.exactCost rs) maxCost := by
  have hinitial : b.initialCost ≤ maxCost := b.initialCost_eq ▸ Nat.min_le_right ..
  have hfold : rs.foldl (fun n r => addCost n r.cost.toNat) b.initialCost =
      (rs.map fun r => r.cost.toNat).foldl addCost b.initialCost := by rw [List.foldl_map]
  rw [hfold, foldl_addCost _ hinitial, b.initialCost_eq, exactCost]
  omega

variable [Suite]

/-! ## Consistency -/

/-- The boxes are those that the transaction names, its outputs are neither too many nor too large,
and its tokens balance. -/
structure Consistent (b : BuiltTx) : Prop where
  spends : b.boxes.map Box.id = b.tx.inputs.map Input.boxId
  looks : b.dataBoxes.map Box.id = b.tx.dataInputs
  outputs : b.tx.outputs.length ≤ maxOutputs
  fits : ∀ out ∈ b.tx.outputs, out.tokens.length ≤ maxTokens ∧ out.registers.length ≤ maxRegisters
  balance : checkBalance b.boxes b.tx.outputs b.burn = .ok ()

theorem check_eq_ok {b : BuiltTx} : b.check = .ok () ↔ b.Consistent := by
  have hlast {c : Prop} [Decidable c] {e : ReductionError} :
      (if c then throw e else pure () : Except ReductionError Unit) = .ok () ↔ ¬c := by
    split <;> simp [*, Outcome.throw_eq, Outcome.pure_eq]
  simp only [check, named, Outcome.check_eq_ok, Outcome.unit_bind_eq_ok, Outcome.forM_eq_ok, hlast,
    Bool.not_eq_true', Bool.not_eq_false, beq_iff_eq, Nat.not_lt]
  constructor
  · rintro ⟨hspends, hlooks, houtputs, hfits, hbalance⟩
    exact ⟨hspends, hlooks, houtputs, hfits, hbalance⟩
  · intro h
    exact ⟨h.spends, h.looks, h.outputs, h.fits, h.balance⟩

/-! ## Reducing single inputs -/

/-- What the condition of the box that input `i` spends can see, where the input has the variables
`x`: the boxes, the outputs and the chain of the transaction, with its own position. -/
def sight (b : BuiltTx) (i : Nat) (x : Extension) : Context where
  tx := ⟨b.boxes, b.dataBoxes, b.tx.outputBoxes, b.state⟩
  selfIndex := i
  extension := x
  activatedVersion := b.state.preHeader.activatedVersion

/-- Under some limit, the condition of the box that input `i` spends comes down to the proposition
and the cost of `r`; the variables are those of the input, and `r` has them as well. -/
def Reduces (b : BuiltTx) (i : Nat) (r : ReducedInput) : Prop :=
  ∃ input box limit, b.tx.inputs[i]? = some input ∧ b.boxes[i]? = some box ∧
    box.candidate.condition.reduce (b.sight i input.extension) limit =
      .ok ⟨r.proposition, r.cost⟩ ∧
    r.extension = input.extension

theorem reduceAt_eq_ok {ctx : TxContext} {i : Nat} {x : Extension} {limit : UInt64}
    {r : ReducedInput} : reduceAt ctx i x limit = .ok r ↔ ∃ box, ctx.inputs[i]? = some box ∧
      box.candidate.condition.reduce (ctx.forInput i x) limit = .ok ⟨r.proposition, r.cost⟩ ∧
      r.extension = x := by
  unfold reduceAt
  cases hbox : ctx.inputs[i]? with
  | none => simp
  | some box =>
    simp only [Outcome.bind_eq_ok, Outcome.pure_eq, Except.ok.injEq, Option.some.injEq,
      exists_eq_left']
    constructor
    · rintro ⟨red, hred, rfl⟩
      exact ⟨hred, rfl⟩
    · rintro ⟨hred, rfl⟩
      exact ⟨_, hred, rfl⟩

/-- What an input comes down to is what `reduceAt` gives in the transaction's context. -/
theorem reduces_iff {b : BuiltTx} {i : Nat} {r : ReducedInput} :
    b.Reduces i r ↔ ∃ input limit, b.tx.inputs[i]? = some input ∧
      reduceAt b.context i input.extension limit = .ok r := by
  constructor
  · rintro ⟨input, box, limit, hinput, hbox, hred, hx⟩
    exact ⟨input, limit, hinput, reduceAt_eq_ok.2 ⟨box, hbox, hred, hx⟩⟩
  · rintro ⟨input, limit, hinput, hat⟩
    obtain ⟨box, hbox, hred, hx⟩ := reduceAt_eq_ok.1 hat
    exact ⟨input, box, limit, hinput, hbox, hred, hx⟩

theorem reduceAt_of_cost_le {ctx : TxContext} {i : Nat} {x : Extension} {limit limit' : UInt64}
    {r : ReducedInput} (h : reduceAt ctx i x limit = .ok r) (hle : r.cost ≤ limit') :
    reduceAt ctx i x limit' = .ok r := by
  obtain ⟨box, hbox, hred, hx⟩ := reduceAt_eq_ok.1 h
  exact reduceAt_eq_ok.2 ⟨box, hbox, Condition.reduce_of_cost_le _ _ hred hle, hx⟩

/-- An input comes down to one thing only, whatever the limits are. -/
theorem Reduces.unique {b : BuiltTx} {i : Nat} {r r' : ReducedInput} (h : b.Reduces i r)
    (h' : b.Reduces i r') : r = r' := by
  obtain ⟨input, limit, hinput, hat⟩ := reduces_iff.1 h
  obtain ⟨input', limit', hinput', hat'⟩ := reduces_iff.1 h'
  obtain rfl : input = input' := Option.some.inj (hinput.symm.trans hinput')
  -- under a limit that covers both costs, both are the result of one computation
  rcases UInt64.le_total r.cost r'.cost with hle | hle
  · have hsame := reduceAt_of_cost_le hat hle
    exact Except.ok.inj (hsame.symm.trans (reduceAt_of_cost_le hat' (UInt64.le_refl _)))
  · have hsame := reduceAt_of_cost_le hat' hle
    exact Except.ok.inj ((reduceAt_of_cost_le hat (UInt64.le_refl _)).symm.trans hsame)

/-- Reducing several inputs is reducing each of them, in order. -/
theorem reduceFrom_eq_ok {ctx : TxContext} {limit : UInt64} {i : Nat} {inputs : List Input}
    {rs : List ReducedInput} : reduceFrom ctx limit i inputs = .ok rs ↔
      rs.length = inputs.length ∧ ∀ j input r, inputs[j]? = some input → rs[j]? = some r →
        reduceAt ctx (i + j) input.extension limit = .ok r := by
  induction inputs generalizing i rs with
  | nil => cases rs <;> simp [reduceFrom]
  | cons input inputs ih =>
    simp only [reduceFrom, Outcome.bind_eq_ok, Outcome.pure_eq, Except.ok.injEq]
    constructor
    · rintro ⟨r, hr, rs, hrs, rfl⟩
      obtain ⟨hlen, hall⟩ := ih.1 hrs
      refine ⟨by simp [hlen], fun j => ?_⟩
      -- positions count from `i`, and those of the rest from `i + 1`
      cases j with
      | zero => simpa using hr
      | succ j => simpa [Nat.add_assoc, Nat.add_comm 1] using hall j
    · rintro ⟨hlen, hall⟩
      obtain ⟨r, rs, rfl⟩ := List.exists_cons_of_length_eq_add_one hlen
      refine ⟨r, hall 0 input r rfl rfl, rs, ih.2 ⟨by simpa using hlen, fun j => ?_⟩, rfl⟩
      simpa [Nat.add_assoc, Nat.add_comm 1] using hall (j + 1)

/-- What several inputs are reduced to is what each of them comes down to. -/
theorem reduces_of_reduceFrom {b : BuiltTx} {limit : UInt64} {rs : List ReducedInput}
    (h : reduceFrom b.context limit 0 b.tx.inputs = .ok rs) (i : Nat) (x : ReducedInput)
    (hx : rs[i]? = some x) : b.Reduces i x := by
  obtain ⟨hlen, hall⟩ := reduceFrom_eq_ok.1 h
  have hi : i < b.tx.inputs.length := hlen ▸ (List.getElem?_eq_some_iff.1 hx).1
  have hinput := List.getElem?_eq_getElem (l := b.tx.inputs) hi
  have hat := hall i _ x hinput hx
  rw [Nat.zero_add] at hat
  exact reduces_iff.2 ⟨_, limit, hinput, hat⟩

/-! ## Whole transactions -/

theorem prepare_eq_ok {b : BuiltTx} {ctx : TxContext} {initial : Nat} :
    b.prepare = .ok (ctx, initial) ↔ b.check = .ok () ∧
      b.initialCost ≤ b.parameters.maxBlockCost.toNat ∧ ctx = b.context ∧
      initial = b.initialCost := by
  simp only [prepare, Outcome.bind_eq_ok, Outcome.check_eq_ok, Outcome.pure_eq, Except.ok.injEq,
    Prod.mk.injEq, Nat.not_lt]
  grind

theorem extensions_of_reduceFrom {ctx : TxContext} {limit : UInt64} {i : Nat}
    {inputs : List Input} {rs : List ReducedInput} (h : reduceFrom ctx limit i inputs = .ok rs) :
    inputs.map Input.extension = rs.map ReducedInput.extension := by
  obtain ⟨hlen, hall⟩ := reduceFrom_eq_ok.1 h
  refine List.ext_getElem (by simp [hlen]) fun j hj hj' => ?_
  simp only [List.length_map] at hj hj'
  have hat := hall j inputs[j] rs[j] (List.getElem?_eq_getElem hj) (List.getElem?_eq_getElem hj')
  obtain ⟨_, _, _, hx⟩ := reduceAt_eq_ok.1 hat
  simp [hx]

theorem reduce_eq_ok {b : BuiltTx} {r : ReducedTx} :
    b.reduce = .ok r ↔ b.check = .ok () ∧
      b.initialCost ≤ b.parameters.maxBlockCost.toNat ∧
      reduceFrom b.context (UInt64.ofNat (b.parameters.maxBlockCost.toNat - b.initialCost)) 0
        b.tx.inputs = .ok r.inputs ∧
      min (b.exactCost r.inputs) maxCost ≤ b.parameters.maxBlockCost.toNat ∧ r.tx = b.tx ∧
      r.totalCost = UInt64.ofNat (min (b.exactCost r.inputs) maxCost) := by
  simp only [reduce, Outcome.bind_eq_ok, Outcome.check_eq_ok, Nat.not_lt, Prod.exists,
    prepare_eq_ok]
  constructor
  · -- forwards, each check of the program is one conjunct; a count that does not fit cannot get
    -- here
    rintro ⟨ctx, initial, ⟨hcheck, hinitial, rfl, rfl⟩, rs, hrs, htotal, hnew⟩
    rw [b.total_eq] at htotal hnew
    split at hnew
    · rename_i r' hr'
      cases hnew
      obtain ⟨htx, rfl, hcost⟩ := ReducedTx.new_eq_ok.1 hr'
      exact ⟨hcheck, hinitial, hrs, htotal, htx, hcost⟩
    · cases hnew
  · rintro ⟨hcheck, hinitial, hrs, htotal, htx, hcost⟩
    refine ⟨_, _, ⟨hcheck, hinitial, rfl, rfl⟩, r.inputs, hrs, ?_, ?_⟩
    · rwa [b.total_eq]
    · rw [b.total_eq, ReducedTx.new_eq_ok.2 ⟨htx, rfl, hcost⟩]
      rfl

/-- Within the ceiling, all inputs are reduced under what the parts leave of it: each cost fits in
there, since the sum of all does. -/
theorem reduceFrom_of_exactCost_le {b : BuiltTx} {rs : List ReducedInput}
    (hlen : rs.length = b.tx.inputs.length) (hall : ∀ i r, rs[i]? = some r → b.Reduces i r)
    (hle : b.exactCost rs ≤ b.parameters.maxBlockCost.toNat) :
    reduceFrom b.context (UInt64.ofNat (b.parameters.maxBlockCost.toNat - b.initialCost)) 0
      b.tx.inputs = .ok rs := by
  have hinitial : b.initialCost ≤ b.partsCost := b.initialCost_eq ▸ Nat.min_le_left ..
  refine reduceFrom_eq_ok.2 ⟨hlen, fun j input r hinput hr => ?_⟩
  obtain ⟨input', limit, hinput', hred⟩ := reduces_iff.1 (hall j r hr)
  obtain rfl : input = input' := Option.some.inj (hinput.symm.trans hinput')
  rw [Nat.zero_add]
  refine reduceAt_of_cost_le hred ?_
  have hmem : r.cost.toNat ∈ rs.map fun r => r.cost.toNat :=
    List.mem_map_of_mem (List.mem_of_getElem? hr)
  have hsum := List.single_le_sum (fun _ _ => Nat.zero_le _) _ hmem
  have hsize := b.parameters.maxBlockCost.toNat_lt
  rw [UInt64.le_iff_toNat_le, UInt64.toNat_ofNat_of_lt' (by simp only [UInt64.size]; omega)]
  simp only [exactCost] at hle
  omega

/-- **Costs are accounted for exactly.**  Under a ceiling below the largest cost, a transaction is
reduced exactly when it is consistent, the condition of every box it spends comes down to something
under some limit, and the exact sum of all costs is within the ceiling.  The reduction then states
this sum, and its inputs are what the conditions come down to, in order; reducing an input alone
gives the same under any limit that covers its cost.  What the parts cost is subtracted from the
ceiling only where it is no larger. -/
theorem reduce_accounting (b : BuiltTx) (hmax : b.parameters.maxBlockCost.toNat < maxCost) :
    ((∃ r, b.reduce = .ok r) ↔ b.Consistent ∧ ∃ rs : List ReducedInput,
      rs.length = b.tx.inputs.length ∧ (∀ i r, rs[i]? = some r → b.Reduces i r) ∧
      b.exactCost rs ≤ b.parameters.maxBlockCost.toNat) ∧
    (∀ r, b.reduce = .ok r → r.tx = b.tx ∧ r.totalCost.toNat = b.exactCost r.inputs ∧
      r.inputs.length = b.tx.inputs.length ∧
      ∀ i x, r.inputs[i]? = some x → b.Reduces i x ∧
        ∀ limit, x.cost ≤ limit → b.reduceInput i limit = .ok x) ∧
    ∀ ctx initial, b.prepare = .ok (ctx, initial) →
      initial = b.partsCost ∧ initial ≤ b.parameters.maxBlockCost.toNat := by
  have hinitial := b.initialCost_eq
  refine ⟨⟨?_, ?_⟩, ?_, ?_⟩
  · rintro ⟨r, hr⟩
    obtain ⟨hcheck, _, hrs, htotal, htx, _⟩ := reduce_eq_ok.1 hr
    obtain ⟨hlen, _⟩ := reduceFrom_eq_ok.1 hrs
    exact ⟨check_eq_ok.1 hcheck, r.inputs, hlen, reduces_of_reduceFrom hrs, by omega⟩
  · rintro ⟨hconsistent, rs, hlen, hall, htotal⟩
    have hcheck := check_eq_ok.2 hconsistent
    have hparts : b.partsCost ≤ b.exactCost rs := Nat.le_add_right ..
    have hreduced := reduceFrom_of_exactCost_le hlen hall htotal
    obtain ⟨r, hr⟩ : ∃ r, ReducedTx.new b.tx rs
        (UInt64.ofNat (min (b.exactCost rs) maxCost)) = .ok r :=
      ⟨⟨b.tx, rs, _, beq_iff_eq.2 (extensions_of_reduceFrom hreduced)⟩,
        ReducedTx.new_eq_ok.2 ⟨rfl, rfl, rfl⟩⟩
    obtain ⟨htx, rfl, hcost⟩ := ReducedTx.new_eq_ok.1 hr
    exact ⟨r, reduce_eq_ok.2 ⟨hcheck, by omega, hreduced, by omega, htx, hcost⟩⟩
  · intro r hr
    obtain ⟨hcheck, hle, hrs, htotal, htx, hcost⟩ := reduce_eq_ok.1 hr
    obtain ⟨hlen, _⟩ := reduceFrom_eq_ok.1 hrs
    refine ⟨htx, ?_, hlen, fun i x hx => ?_⟩
    · have hsize := b.parameters.maxBlockCost.toNat_lt
      rw [hcost, UInt64.toNat_ofNat_of_lt' (by simp only [UInt64.size]; omega)]
      omega
    · have hreduces := reduces_of_reduceFrom hrs i x hx
      refine ⟨hreduces, fun limit hlimit => ?_⟩
      obtain ⟨input, limit', hinput, hat⟩ := reduces_iff.1 hreduces
      rw [reduceInput, hinput]
      simp only [prepare_eq_ok.2 ⟨hcheck, hle, rfl, rfl⟩, Outcome.ok_bind]
      exact reduceAt_of_cost_le hat hlimit
  · intro ctx initial hprepare
    obtain ⟨_, hle, _, rfl⟩ := prepare_eq_ok.1 hprepare
    exact ⟨by omega, hle⟩

end BuiltTx

/-! ## A transaction that just fits -/

/-- A box that anybody may spend. -/
def openBox : Box :=
  ⟨⟨1, .new (.unary .boolToSigma (.const (.bool true))), [], [], 0⟩, .zero 32, 0⟩

/-- A transaction that spends two such boxes, with a ceiling that just allows it. -/
def spendTwo : BuiltTx where
  tx := ⟨[⟨openBox.id, .empty⟩, ⟨openBox.id, .empty⟩], [], []⟩
  boxes := [openBox, openBox]
  dataBoxes := []
  state := Context.blank.tx.state
  burn := []
  parameters := { Parameters.default with maxBlockCost := 4029 }
  baseCost := 7

/-- Twice two thousand for an input, twice eleven for a condition, and seven in advance. -/
theorem BuiltTx.reduce_accounting_spendTwo :
    spendTwo.parameters.maxBlockCost.toNat < maxCost ∧ ∃ r, spendTwo.reduce = .ok r ∧
      r.totalCost = 4029 ∧ r.inputs = [⟨.trivial true, 11, .empty⟩, ⟨.trivial true, 11, .empty⟩] ∧
      spendTwo.reduceInput 1 11 = .ok ⟨.trivial true, 11, .empty⟩ := by
  have hmax : spendTwo.parameters.maxBlockCost.toNat < maxCost := by decide
  obtain ⟨hiff, hresult, -⟩ := spendTwo.reduce_accounting hmax
  have hconsistent : spendTwo.Consistent := by
    refine ⟨rfl, rfl, by decide, ?_, ?_⟩
    · simp [spendTwo]
    · simp [spendTwo, checkBalance, TokenTotals.ofList, openBox, Outcome.pure_eq]
  have hreduces (i : Nat) (hi : i < 2) : spendTwo.Reduces i ⟨.trivial true, 11, .empty⟩ := by
    match i, hi with
    | 0, _ | 1, _ => exact ⟨⟨openBox.id, .empty⟩, openBox, 11, rfl, rfl, rfl, rfl⟩
  obtain ⟨r, hr⟩ := hiff.2 ⟨hconsistent, List.replicate 2 ⟨.trivial true, 11, .empty⟩, rfl,
    fun i r hi => by
      obtain ⟨hlt, rfl⟩ := List.getElem?_eq_some_iff.1 hi
      simpa only [List.getElem_replicate] using hreduces i hlt, by decide⟩
  obtain ⟨-, htotal, hlength, hinputs⟩ := hresult r hr
  have hlen : r.inputs.length = 2 := hlength
  -- no condition comes down to anything else
  have hall : r.inputs = [⟨.trivial true, 11, .empty⟩, ⟨.trivial true, 11, .empty⟩] := by
    refine List.eq_replicate_iff.2 ⟨hlen, fun x hx => ?_⟩
    obtain ⟨i, hi⟩ := List.mem_iff_getElem?.1 hx
    have hlt : i < 2 := hlen ▸ (List.getElem?_eq_some_iff.1 hi).1
    exact (hinputs i x hi).1.unique (hreduces i hlt)
  refine ⟨hmax, r, hr, UInt64.toNat.inj ?_, hall, ?_⟩
  · rw [htotal, hall]
    rfl
  · exact (hinputs 1 _ (by rw [hall]; rfl)).2 11 (by decide)

end Covenant

/-
  CONSERVING — which tokens a transaction that is reduced makes and burns.

  `BuiltTx.check` compares the boxes with the inputs one by one: same number, same ids, same order.
  It does not ask whether an id came before.  So the sums that balance run over the inputs, and a
  box that two inputs name is held twice.

  1. **Boxes told apart** — a list of boxes consists of those whose id comes for the first time and
     those whose id came before, and the tokens of the list are those of both (`Box.total_tokensIn`).
  2. **`BuiltTx.reduce_conserves`** — of every token but the new one, as much is made and burned as
     the distinct boxes hold, and again what the repeated ones hold; where no box is named twice,
     what the distinct boxes hold.
  3. **A box spent twice** — makes ten tokens out of five (`BuiltTx.reduce_spentTwice`).
-/
import Covenant.Proofs.Ledger.Accounting
import Covenant.Proofs.Ledger.Balancing

namespace Covenant

open Token

/-- Balance leaves no exception but the new token. -/
theorem Balanced.conserved_of_ne {mint : Option TokenId} {held made burned : List Token}
    (h : Balanced mint held made burned) {id : TokenId} (hid : some id ≠ mint) :
    total made id + total burned id = total held id := by
  by_cases hheld : Listed held id
  · exact h.conserved id hheld
  · have hmade : ¬Listed made id := by
      intro hmade
      rcases h.made_held id hmade with hlisted | hmint
      · exact hheld hlisted
      · exact hid hmint
    have hburned : ¬Listed burned id := fun hburned => hheld (h.burned_held id hburned)
    rw [total_eq_zero hheld, total_eq_zero hmade, total_eq_zero hburned]

section

variable [Suite]

/-! ## Boxes told apart -/

namespace Box

/-- The boxes whose id is new: neither seen before nor that of a box further ahead. -/
def distinctFrom (seen : List BoxId) : List Box → List Box
  | [] => []
  | b :: bs => if b.id ∈ seen then distinctFrom seen bs else b :: distinctFrom (b.id :: seen) bs

/-- The other boxes. -/
def repeatedFrom (seen : List BoxId) : List Box → List Box
  | [] => []
  | b :: bs => if b.id ∈ seen then b :: repeatedFrom seen bs else repeatedFrom (b.id :: seen) bs

/-- The boxes of a list, each once: an id counts where it comes for the first time. -/
def distinct (bs : List Box) : List Box := distinctFrom [] bs

/-- The boxes of a list whose id came before. -/
def repeated (bs : List Box) : List Box := repeatedFrom [] bs

omit [Suite] in
theorem total_cons (b : Box) (bs : List Box) (id : TokenId) :
    total (tokensIn (b :: bs)) id = total b.candidate.tokens id + total (tokensIn bs) id := by
  rw [tokensIn, List.flatMap_cons, total_append]
  rfl

theorem total_from (bs : List Box) (seen : List BoxId) (id : TokenId) :
    total (tokensIn (distinctFrom seen bs)) id + total (tokensIn (repeatedFrom seen bs)) id =
      total (tokensIn bs) id := by
  induction bs generalizing seen with
  | nil => rfl
  | cons b bs ih =>
    -- The first box goes to one of the two sides, and its id counts as seen from then on.
    rw [distinctFrom, repeatedFrom]
    by_cases h : b.id ∈ seen
    · have hrest := ih seen
      rw [if_pos h, if_pos h, total_cons, total_cons]
      omega
    · have hrest := ih (b.id :: seen)
      rw [if_neg h, if_neg h, total_cons, total_cons]
      omega

theorem total_tokensIn (bs : List Box) (id : TokenId) :
    total (tokensIn bs) id =
      total (tokensIn (distinct bs)) id + total (tokensIn (repeated bs)) id :=
  (total_from bs [] id).symm

theorem repeatedFrom_eq_nil {bs : List Box} {seen : List BoxId} (hbs : (bs.map Box.id).Nodup)
    (hseen : ∀ b ∈ bs, b.id ∉ seen) : repeatedFrom seen bs = [] := by
  induction bs generalizing seen with
  | nil => rfl
  | cons b bs ih =>
    obtain ⟨hfirst, hrest⟩ := List.nodup_cons.1 hbs
    rw [repeatedFrom, if_neg (hseen b List.mem_cons_self)]
    refine ih hrest fun c hc hmem => ?_
    rcases List.mem_cons.1 hmem with heq | hmem
    · exact hfirst (heq ▸ List.mem_map_of_mem hc)
    · exact hseen c (List.mem_cons_of_mem _ hc) hmem

/-- Boxes with ids of their own are not repeated. -/
theorem repeated_eq_nil {bs : List Box} (h : (bs.map Box.id).Nodup) : repeated bs = [] :=
  repeatedFrom_eq_nil h fun _ _ => List.not_mem_nil

end Box

/-! ## Transactions -/

namespace BuiltTx

/-- A transaction that passes spends the boxes its inputs name, and its tokens balance. -/
theorem of_check {b : BuiltTx} (h : b.check = .ok ()) :
    b.boxes.map Box.id = b.tx.inputs.map Input.boxId ∧
      checkBalance b.boxes b.tx.outputs b.burn = .ok () := by
  have hconsistent := check_eq_ok.1 h
  exact ⟨hconsistent.spends, hconsistent.balance⟩

/-- **What a reduced transaction does with tokens.**  Of every token but the one under the first
box's id, outputs and burned tokens add up to what the distinct boxes hold and, once more, what those
hold that are named again.  So no token is made or lost where no two inputs name one box. -/
theorem reduce_conserves (b : BuiltTx) {r : ReducedTx} (hr : b.reduce = .ok r) {id : TokenId}
    (hid : some id ≠ b.boxes.head?.map Box.id) :
    total (Candidate.tokensIn b.tx.outputs) id + total b.burn id =
      total (Box.tokensIn (Box.distinct b.boxes)) id +
        total (Box.tokensIn (Box.repeated b.boxes)) id ∧
    ((b.tx.inputs.map Input.boxId).Nodup →
      total (Candidate.tokensIn b.tx.outputs) id + total b.burn id =
        total (Box.tokensIn (Box.distinct b.boxes)) id) := by
  obtain ⟨hnamed, hbalance⟩ := of_check (reduce_eq_ok.1 hr).1
  have hconserved := (checkBalance_eq_ok.1 hbalance).conserved_of_ne hid
  have hsplit := Box.total_tokensIn b.boxes id
  constructor
  · rw [hconserved, hsplit]
  · intro hnodup
    -- without repetitions the surplus is empty
    have hnone : total (Box.tokensIn (Box.repeated b.boxes)) id = 0 := by
      rw [Box.repeated_eq_nil (hnamed ▸ hnodup)]
      rfl
    omega

end BuiltTx

end

/-! ## One box, spent once and twice -/

/-- So much of each of two tokens. -/
def pair (n : UInt64) : List Token := [⟨.zero 32, n⟩, ⟨.ofNatLE 32 1, n⟩]

/-- A transaction that spends one box, with five of each of two tokens, so many times over. -/
def spendPair (times : Nat) (made burned : UInt64) : BuiltTx where
  tx := ⟨.replicate times ⟨(openBoxWith (pair 5)).id, .empty⟩, [], [openOutput (pair made)]⟩
  boxes := .replicate times (openBoxWith (pair 5))
  dataBoxes := []
  state := Context.blank.tx.state
  burn := pair burned
  parameters := .default
  baseCost := 0

theorem check_spendPair {times : Nat} {made burned : UInt64}
    (h : checkBalance (spendPair times made burned).boxes (spendPair times made burned).tx.outputs
      (pair burned) = .ok ()) : (spendPair times made burned).check = .ok () := by
  have hone : 1 ≤ maxOutputs := by decide
  have htwo : 2 ≤ maxTokens := by decide
  refine BuiltTx.check_eq_ok.2 ⟨?_, rfl, hone, ?_, h⟩
  · simp [spendPair]
  · intro out hout
    obtain rfl := List.mem_singleton.1 hout
    exact ⟨htwo, Nat.zero_le _⟩

/-- Whatever the id of the first box is, one of the two tokens has another. -/
theorem exists_other_token (mint : TokenId) :
    ∃ id : TokenId, (id = .zero 32 ∨ id = .ofNatLE 32 1) ∧ some id ≠ some mint := by
  by_cases h : mint = .zero 32
  · subst h
    exact ⟨.ofNatLE 32 1, .inr rfl, by decide⟩
  · exact ⟨.zero 32, .inl rfl, by simpa using Ne.symm h⟩

/-- Spent once, the box accounts for three of the token made and two burned. -/
theorem BuiltTx.reduce_conserves_spentOnce :
    ∃ r, (spendPair 1 3 2).reduce = .ok r ∧
      ((spendPair 1 3 2).tx.inputs.map Input.boxId).Nodup ∧
      ∃ id, some id ≠ (spendPair 1 3 2).boxes.head?.map Box.id ∧
        total (Candidate.tokensIn (spendPair 1 3 2).tx.outputs) id +
          total (spendPair 1 3 2).burn id =
            total (Box.tokensIn (Box.distinct (spendPair 1 3 2).boxes)) id := by
  have hcheck : (spendPair 1 3 2).check = .ok () := check_spendPair (by decide)
  have hreduce : ∃ r, (spendPair 1 3 2).reduce = .ok r :=
    ⟨⟨(spendPair 1 3 2).tx, [⟨.trivial true, 11, .empty⟩], 2511, rfl⟩,
      reduce_eq_ok.2 ⟨hcheck, by decide, rfl, by decide, rfl, rfl⟩⟩
  have hnodup : ((spendPair 1 3 2).tx.inputs.map Input.boxId).Nodup := by simp [spendPair]
  obtain ⟨r, hr⟩ := hreduce
  obtain ⟨id, -, hid⟩ := exists_other_token (openBoxWith (pair 5)).id
  exact ⟨r, hr, hnodup, id, hid, ((spendPair 1 3 2).reduce_conserves hr hid).2 hnodup⟩

/-- Spent twice, the box with five of the token accounts for ten made. -/
theorem BuiltTx.reduce_spentTwice :
    ∃ r, (spendPair 2 10 0).reduce = .ok r ∧
      ∃ id, some id ≠ (spendPair 2 10 0).boxes.head?.map Box.id ∧
        total (Candidate.tokensIn (spendPair 2 10 0).tx.outputs) id +
          total (spendPair 2 10 0).burn id = 10 ∧
        total (Box.tokensIn (Box.distinct (spendPair 2 10 0).boxes)) id = 5 := by
  have hcheck : (spendPair 2 10 0).check = .ok () := check_spendPair (by decide)
  have hreduce : ∃ r, (spendPair 2 10 0).reduce = .ok r :=
    ⟨⟨(spendPair 2 10 0).tx, .replicate 2 ⟨.trivial true, 11, .empty⟩, 4722, rfl⟩,
      reduce_eq_ok.2 ⟨hcheck, by decide, rfl, by decide, rfl, rfl⟩⟩
  have hdistinct : Box.distinct (spendPair 2 10 0).boxes = [openBoxWith (pair 5)] := by
    simp [Box.distinct, Box.distinctFrom, spendPair, List.replicate]
  obtain ⟨r, hr⟩ := hreduce
  -- of two identifiers one is not that of the first box
  obtain ⟨id, hpair, hid⟩ := exists_other_token (openBoxWith (pair 5)).id
  refine ⟨r, hr, id, hid, ?_, ?_⟩
  · rcases hpair with rfl | rfl <;> decide
  · rw [hdistinct]
    rcases hpair with rfl | rfl <;> decide

end Covenant

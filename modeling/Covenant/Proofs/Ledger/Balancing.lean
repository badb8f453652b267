/-
  BALANCING — when tokens balance, said without tables.

  `checkBalance` folds three lists of token amounts into tables sorted by id, with sums that stop at
  the largest amount, then compares the keys of the tables and walks along the first one.  What it
  decides mentions neither tables nor orders nor overflow (`Balanced`): every sum is an amount,
  nothing is burned that is not held, one new token may be minted, and of each token held as much is
  made and burned as there is.

  1. **Sums** — `total` and `Listed` are all that matters of a list; lists that agree in them are
     `Regrouped`.
  2. **Tables** — adding an entry changes the sum of its own token and no other (`add_spec`); so a
     list becomes the table of its sums, unless one of them is no amount (`ofList_spec`).
  3. **`checkBalance_exact`** — the check passes exactly when tokens balance, and so it does not see
     how amounts are split over entries, nor the order of the entries.
-/
import Covenant.Ledger.Balance
import Covenant.Proofs.Outcome
import Covenant.Script.Condition
import Covenant.Suite.Standard
import Mathlib.Algebra.Order.Ring.Nat
import Mathlib.Data.List.Lex
import Mathlib.Tactic.SplitIfs

namespace Covenant

/-! ## Sums of amounts -/

namespace Token

/-- The exact sum of the amounts that a list gives for a token. -/
def total (ts : List Token) (id : TokenId) : Nat :=
  ((ts.filter fun t => t.id = id).map fun t => t.amount.toNat).sum

/-- Some entry of the list is for the token, if only for none of it. -/
def Listed (ts : List Token) (id : TokenId) : Prop := ∃ t ∈ ts, t.id = id

/-- Every sum is an amount. -/
def Fits (ts : List Token) : Prop := ∀ id, total ts id ≤ maxAmount

theorem total_cons (t : Token) (ts : List Token) (id : TokenId) :
    total (t :: ts) id = (if t.id = id then t.amount.toNat else 0) + total ts id := by
  by_cases h : t.id = id <;> simp [total, h]

theorem total_append (ts us : List Token) (id : TokenId) :
    total (ts ++ us) id = total ts id + total us id := by
  simp [total]

theorem total_snoc (ts : List Token) (t : Token) (id : TokenId) :
    total (ts ++ [t]) id = total ts id + if t.id = id then t.amount.toNat else 0 := by
  rw [total_append, total_cons]
  rfl

theorem listed_cons {t : Token} {ts : List Token} {id : TokenId} :
    Listed (t :: ts) id ↔ t.id = id ∨ Listed ts id := by
  simp [Listed]

theorem listed_snoc {ts : List Token} {t : Token} {id : TokenId} :
    Listed (ts ++ [t]) id ↔ Listed ts id ∨ t.id = id := by
  simp [Listed, or_and_right, exists_or]

theorem not_listed_nil (id : TokenId) : ¬Listed [] id := by simp [Listed]

/-- Of a token that is not listed there is nothing. -/
theorem total_eq_zero {ts : List Token} {id : TokenId} (h : ¬Listed ts id) : total ts id = 0 := by
  have hnone : ts.filter (fun t => t.id = id) = [] := by
    rw [List.filter_eq_nil_iff]
    intro t ht heq
    exact h ⟨t, ht, by simpa using heq⟩
  rw [total, hnone]
  rfl

/-! ## Other entries for the same tokens -/

/-- The same tokens in the same amounts, in other entries or in another order. -/
def Regrouped (ts us : List Token) : Prop :=
  ∀ id, (Listed ts id ↔ Listed us id) ∧ total ts id = total us id

theorem Regrouped.symm {ts us : List Token} (h : Regrouped ts us) : Regrouped us ts :=
  fun id => ⟨(h id).1.symm, (h id).2.symm⟩

/-- The order of the entries does not matter. -/
theorem regrouped_of_perm {ts us : List Token} (h : ts.Perm us) : Regrouped ts us := by
  intro id
  have hsum := ((h.filter fun t => t.id = id).map fun t => t.amount.toNat).sum_nat
  exact ⟨exists_congr fun t => and_congr_left fun _ => h.mem_iff, hsum⟩

/-- An amount may be split over two entries. -/
theorem regrouped_split {a b c : UInt64} (h : c.toNat = a.toNat + b.toNat) (id : TokenId)
    (ts : List Token) : Regrouped (⟨id, c⟩ :: ts) (⟨id, a⟩ :: ⟨id, b⟩ :: ts) := by
  intro j
  simp only [listed_cons, total_cons]
  by_cases hj : id = j
  · simp only [if_pos hj]
    exact ⟨by tauto, by omega⟩
  · simp only [if_neg hj]
    exact ⟨by tauto, by omega⟩

end Token

open Token

namespace TokenTotals

/-! ## One table -/

/-- Ids increase. -/
def Sorted (t : TokenTotals) : Prop := t.Pairwise fun e f => e.1.1 < f.1.1

theorem amount_cons (e : TokenId × Nat) (t : TokenTotals) (id : TokenId) :
    amount (e :: t) id = if e.1 = id then e.2 else amount t id := by
  obtain ⟨i, n⟩ := e
  rw [amount, List.lookup_cons]
  by_cases h : i = id
  · simp [h]
  · have hne : (id == i) = false := beq_eq_false_iff_ne.2 fun heq => h heq.symm
    rw [hne, if_neg h]
    rfl

theorem ne_of_lt {a b : TokenId} (h : a.1 < b.1) : b ≠ a := by
  rintro rfl
  exact List.lt_irrefl _ h

theorem lt_of_not_lt {a b : TokenId} (hne : a ≠ b) (h : ¬a.1 < b.1) : b.1 < a.1 := by
  by_cases hlt : b.1 < a.1
  · exact hlt
  · exact absurd (Subtype.ext (List.le_antisymm (List.not_lt.1 hlt) (List.not_lt.1 h))) hne

/-- A token that belongs in front of a whole table is not in it. -/
theorem amount_of_lt {t : TokenTotals} {id : TokenId} (h : ∀ e ∈ t, id.1 < e.1.1) :
    amount t id = 0 := by
  induction t with
  | nil => rfl
  | cons e t ih =>
    obtain ⟨hlt, hall⟩ := List.forall_mem_cons.1 h
    rw [amount_cons, if_neg (ne_of_lt hlt), ih hall]

/-- In a sorted table the sum of a token is what its only entry says. -/
theorem amount_of_mem {t : TokenTotals} (ht : Sorted t) {id : TokenId} {n : Nat}
    (h : (id, n) ∈ t) : amount t id = n := by
  induction t with
  | nil => cases h
  | cons e t ih =>
    obtain ⟨hfirst, hrest⟩ := List.pairwise_cons.1 ht
    rw [amount_cons]
    rcases List.mem_cons.1 h with rfl | h
    · rw [if_pos rfl]
    · rw [if_neg (ne_of_lt (hfirst _ h)).symm, ih hrest h]

/-- Adding an amount to a sorted table replaces the sum of that one token, or stops because the sum
is no amount. -/
theorem add_spec {t : TokenTotals} (ht : Sorted t) (id : TokenId) {a : Nat} (ha : a ≤ maxAmount) :
    if amount t id + a ≤ maxAmount then
      ∃ t', add id a t = .ok t' ∧ Sorted t' ∧
        ∀ e, e ∈ t' ↔ e = (id, amount t id + a) ∨ e.1 ≠ id ∧ e ∈ t
    else add id a t = .error (.inconsistentTransaction .amountOverflow) := by
  induction t with
  | nil =>
    have hsum : amount [] id + a = a := Nat.zero_add a
    rw [hsum, if_pos ha]
    exact ⟨[(id, a)], rfl, List.pairwise_singleton .., by simp⟩
  | cons e t ih =>
    obtain ⟨i, n⟩ := e
    obtain ⟨hfirst, hrest⟩ := List.pairwise_cons.1 ht
    by_cases heq : id = i
    · -- the token is in front: its sum grows, or leaves the range
      subst heq
      have hsum : amount ((id, n) :: t) id = n := by rw [amount_cons, if_pos rfl]
      have hapart : ∀ e ∈ t, e.1 ≠ id := fun e he => ne_of_lt (hfirst e he)
      rw [hsum]
      by_cases hfits : n + a ≤ maxAmount
      · rw [if_pos hfits]
        refine ⟨(id, n + a) :: t, ?_, List.pairwise_cons.2 ⟨hfirst, hrest⟩, fun e => ?_⟩
        · rw [add, if_pos rfl, if_neg (by omega)]
        · grind
      · rw [if_neg hfits, add, if_pos rfl, if_pos (by omega)]
    · have hsum : amount ((i, n) :: t) id = amount t id := by
        rw [amount_cons, if_neg fun h => heq h.symm]
      rw [hsum]
      by_cases hlt : id.1 < i.1
      · -- the token belongs in front, and so it is not in the table
        have hahead : ∀ e ∈ (i, n) :: t, id.1 < e.1.1 := by
          intro e he
          rcases List.mem_cons.1 he with rfl | he
          · exact hlt
          · exact List.lt_trans hlt (hfirst e he)
        have hzero : amount t id = 0 :=
          amount_of_lt fun e he => hahead e (List.mem_cons_of_mem _ he)
        rw [hzero, Nat.zero_add, if_pos ha]
        refine ⟨(id, a) :: (i, n) :: t, ?_, List.pairwise_cons.2 ⟨hahead, ht⟩, fun e => ?_⟩
        · rw [add, if_neg heq, if_pos hlt]
        · rw [List.mem_cons]
          exact or_congr_right ⟨fun he => ⟨ne_of_lt (hahead e he), he⟩, fun he => he.2⟩
      · -- the token belongs further back
        have hstep : add id a ((i, n) :: t) = (do
            let t' ← add id a t
            return (i, n) :: t') := by rw [add, if_neg heq, if_neg hlt]
        have htail := ih hrest
        by_cases hfits : amount t id + a ≤ maxAmount
        · rw [if_pos hfits] at htail ⊢
          obtain ⟨t', hadd, hsorted, hmem⟩ := htail
          refine ⟨(i, n) :: t', by rw [hstep, hadd]; rfl, List.pairwise_cons.2 ⟨?_, hsorted⟩, ?_⟩
          · intro e he
            rcases (hmem e).1 he with rfl | ⟨-, he⟩
            · exact lt_of_not_lt heq hlt
            · exact hfirst e he
          · grind
        · rw [if_neg hfits] at htail ⊢
          rw [hstep, htail]
          rfl

/-! ## The table of a list -/

/-- The table has every listed token once, with its exact sum, and no sum is too large. -/
structure Sums (t : TokenTotals) (ts : List Token) : Prop where
  sorted : Sorted t
  mem_iff : ∀ id n, (id, n) ∈ t ↔ Listed ts id ∧ total ts id = n
  fits : Fits ts

theorem sums_nil : Sums [] [] where
  sorted := .nil
  mem_iff id n := by simp [not_listed_nil]
  fits id := Nat.zero_le _

namespace Sums

variable {t : TokenTotals} {ts : List Token} {id : TokenId}

theorem amount_eq (h : Sums t ts) (id : TokenId) : amount t id = total ts id := by
  by_cases hlisted : Listed ts id
  · exact amount_of_mem h.sorted ((h.mem_iff id _).2 ⟨hlisted, rfl⟩)
  · rw [total_eq_zero hlisted]
    have hnone : t.lookup id = none := by
      rw [List.lookup_eq_none_iff]
      rintro ⟨i, n⟩ he
      have hi := ((h.mem_iff i n).1 he).1
      exact bne_iff_ne.2 fun heq => hlisted (heq ▸ hi)
    rw [amount, hnone]
    rfl

theorem lists_iff (h : Sums t ts) : lists t id = true ↔ Listed ts id := by
  rw [lists, List.any_eq_true]
  constructor
  · rintro ⟨⟨i, n⟩, he, heq⟩
    exact eq_of_beq heq ▸ ((h.mem_iff i n).1 he).1
  · intro hlisted
    exact ⟨(id, total ts id), (h.mem_iff _ _).2 ⟨hlisted, rfl⟩, beq_self_eq_true id⟩

/-- What holds of all entries of the table holds of all listed tokens with their sums. -/
theorem forall_mem_iff (h : Sums t ts) {p : TokenId → Nat → Prop} :
    (∀ e ∈ t, p e.1 e.2) ↔ ∀ id, Listed ts id → p id (total ts id) := by
  constructor
  · intro hall id hlisted
    exact hall (id, total ts id) ((h.mem_iff _ _).2 ⟨hlisted, rfl⟩)
  · rintro hall ⟨id, n⟩ he
    obtain ⟨hlisted, rfl⟩ := (h.mem_iff id n).1 he
    exact hall id hlisted

/-- One more entry in the list is one more amount in the table, if the sum is still an amount. -/
theorem add (h : Sums t ts) (e : Token) :
    if total (ts ++ [e]) e.id ≤ maxAmount then
      ∃ t', TokenTotals.add e.id e.amount.toNat t = .ok t' ∧ Sums t' (ts ++ [e])
    else TokenTotals.add e.id e.amount.toNat t =
      .error (.inconsistentTransaction .amountOverflow) := by
  have hamount : e.amount.toNat ≤ maxAmount := Nat.le_of_lt_succ e.amount.toNat_lt
  have hspec := add_spec h.sorted e.id hamount
  have hsum : amount t e.id + e.amount.toNat = total (ts ++ [e]) e.id := by
    rw [h.amount_eq, total_snoc, if_pos rfl]
  have hothers : ∀ id, e.id ≠ id → total (ts ++ [e]) id = total ts id := by
    intro id hne
    rw [total_snoc, if_neg hne, Nat.add_zero]
  rw [hsum] at hspec
  -- one identifier is added to, and all others keep their entries and sums
  by_cases hfits : total (ts ++ [e]) e.id ≤ maxAmount
  · rw [if_pos hfits] at hspec ⊢
    obtain ⟨t', hadd, hsorted, hmem⟩ := hspec
    refine ⟨t', hadd, hsorted, fun id n => ?_, fun id => ?_⟩
    · rw [hmem, h.mem_iff, listed_snoc, Prod.mk.injEq]
      -- the entry that was just made or enlarged, against those that stood there
      by_cases hid : e.id = id
      · subst hid
        simp [eq_comm]
      · rw [hothers id hid]
        simp [hid, Ne.symm hid]
    · by_cases hid : e.id = id
      · exact hid ▸ hfits
      · exact hothers id hid ▸ h.fits id
  · rw [if_neg hfits] at hspec ⊢
    exact hspec

/-- The table of a list that grows entry by entry. -/
theorem foldlM (h : Sums t ts) (us : List Token) :
    (∃ t', us.foldlM (fun t e => TokenTotals.add e.id e.amount.toNat t) t = .ok t' ∧
      Sums t' (ts ++ us)) ∨
    us.foldlM (fun t e => TokenTotals.add e.id e.amount.toNat t) t =
      .error (.inconsistentTransaction .amountOverflow) ∧ ¬Fits (ts ++ us) := by
  induction us generalizing t ts with
  | nil => exact .inl ⟨t, rfl, by simpa using h⟩
  | cons e us ih =>
    have hadd := h.add e
    rw [List.foldlM_cons, List.append_cons ts e us]
    by_cases hfits : total (ts ++ [e]) e.id ≤ maxAmount
    · rw [if_pos hfits] at hadd
      obtain ⟨t', hadd, hsums⟩ := hadd
      rw [hadd]
      exact ih hsums
    · -- the sum of this token only grows with the entries that follow
      rw [if_neg hfits] at hadd
      refine .inr ⟨by rw [hadd]; rfl, fun hall => hfits ?_⟩
      have hle := hall e.id
      rw [total_append] at hle
      omega

end Sums

/-- **Tables are exact.**  A list becomes the table of its sums, unless one of them is no amount. -/
theorem ofList_spec (ts : List Token) :
    (∃ t, ofList ts = .ok t ∧ Sums t ts) ∨
      ofList ts = .error (.inconsistentTransaction .amountOverflow) ∧ ¬Fits ts :=
  sums_nil.foldlM ts

theorem exists_ofList {ts : List Token} (h : Fits ts) : ∃ t, ofList ts = .ok t ∧ Sums t ts := by
  rcases ofList_spec ts with hok | ⟨-, hnot⟩
  · exact hok
  · exact absurd h hnot

theorem sums_ofList {ts : List Token} {t : TokenTotals} (h : ofList ts = .ok t) : Sums t ts := by
  rcases ofList_spec ts with ⟨t', hok, hsums⟩ | ⟨herror, -⟩
  · rw [h] at hok
    cases hok
    exact hsums
  · rw [h] at herror
    cases herror

end TokenTotals

/-! ## Balance -/

/-- The tokens in some boxes. -/
def Box.tokensIn (boxes : List Box) : List Token := boxes.flatMap fun b => b.candidate.tokens

/-- The tokens in some outputs. -/
def Candidate.tokensIn (outputs : List Candidate) : List Token := outputs.flatMap fun c => c.tokens

/-- Tokens balance, where one token may be new. -/
structure Balanced (mint : Option TokenId) (held made burned : List Token) : Prop where
  held_fits : Fits held
  made_fits : Fits made
  burned_fits : Fits burned
  burned_held : ∀ id, Listed burned id → Listed held id
  made_held : ∀ id, Listed made id → Listed held id ∨ some id = mint
  conserved : ∀ id, Listed held id → total made id + total burned id = total held id

/-- Balance is about sums only. -/
theorem Balanced.regroup {mint : Option TokenId} {held held' made made' burned burned' : List Token}
    (h : Balanced mint held made burned) (hheld : Regrouped held held')
    (hmade : Regrouped made made') (hburned : Regrouped burned burned') :
    Balanced mint held' made' burned' where
  held_fits id := (hheld id).2 ▸ h.held_fits id
  made_fits id := (hmade id).2 ▸ h.made_fits id
  burned_fits id := (hburned id).2 ▸ h.burned_fits id
  burned_held id hid := (hheld id).1.1 (h.burned_held id ((hburned id).1.2 hid))
  made_held id hid := (h.made_held id ((hmade id).1.2 hid)).imp_left (hheld id).1.1
  conserved id hid := by
    rw [← (hmade id).2, ← (hburned id).2, ← (hheld id).2]
    exact h.conserved id ((hheld id).1.2 hid)

section Comparisons

variable {available produced burned : TokenTotals} {held made burn : List Token}

theorem checkToken_eq_ok (hmade : produced.Sums made) (hburn : burned.Sums burn) {id : TokenId}
    {n : Nat} (hn : n ≤ maxAmount) :
    checkToken produced burned id n = .ok () ↔ total made id + total burn id = n := by
  simp only [checkToken, hmade.amount_eq, hburn.amount_eq]
  by_cases hover : maxAmount < total made id + total burn id
  · have hne : total made id + total burn id ≠ n := by omega
    rw [if_pos hover]
    simp [hne]
  · rw [if_neg hover]
    split_ifs <;> simp <;> omega

/-- The comparisons between the three tables, in terms of the lists they were made from. -/
theorem comparisons_iff (hheld : available.Sums held) (hmade : produced.Sums made)
    (hburn : burned.Sums burn) (mint : Option TokenId) :
    (¬(produced.any fun e => !available.lists e.1 && some e.1 != mint) = true ∧
      ¬(burned.any fun e => !available.lists e.1) = true ∧
      (available.forM fun e => checkToken produced burned e.1 e.2) = .ok ()) ↔
    (∀ id, Listed made id → Listed held id ∨ some id = mint) ∧
      (∀ id, Listed burn id → Listed held id) ∧
      ∀ id, Listed held id → total made id + total burn id = total held id := by
  refine and_congr ?_ (and_congr ?_ ?_)
  · rw [← hmade.forall_mem_iff (p := fun id _ => Listed held id ∨ some id = mint),
      List.any_eq_true, not_exists]
    refine forall_congr' fun e => ?_
    rw [not_and, Bool.and_eq_true, not_and_or, Bool.not_eq_true', bne_iff_ne, not_not,
      Bool.not_eq_false, hheld.lists_iff]
  · -- burned tokens have no exception for the minted one
    rw [← hburn.forall_mem_iff (p := fun id _ => Listed held id), List.any_eq_true, not_exists]
    refine forall_congr' fun e => ?_
    rw [not_and, Bool.not_eq_true', Bool.not_eq_false, hheld.lists_iff]
  · rw [Outcome.forM_eq_ok,
      hheld.forall_mem_iff (p := fun id n => checkToken produced burned id n = .ok ())]
    refine forall_congr' fun id => forall_congr' fun _ => ?_
    exact checkToken_eq_ok hmade hburn (hheld.fits id)

end Comparisons

section Check

variable [Suite]

theorem checkBalance_eq_ok {inputs : List Box} {outputs : List Candidate} {burn : List Token} :
    checkBalance inputs outputs burn = .ok () ↔
    Balanced (inputs.head?.map Box.id) (Box.tokensIn inputs) (Candidate.tokensIn outputs) burn := by
  simp only [checkBalance, Outcome.bind_eq_ok, Outcome.check_eq_ok]
  constructor
  · -- the three tables exist because the sums of each list fit
    rintro ⟨available, havailable, produced, hproduced, burned, hburned, hchecks⟩
    have hheld := TokenTotals.sums_ofList havailable
    have hmade := TokenTotals.sums_ofList hproduced
    have hburn := TokenTotals.sums_ofList hburned
    obtain ⟨hminted, hcovered, hconserved⟩ := (comparisons_iff hheld hmade hburn _).1 hchecks
    exact ⟨hheld.fits, hmade.fits, hburn.fits, hcovered, hminted, hconserved⟩
  · intro h
    -- and the sums fit because the tables could be made
    obtain ⟨available, havailable, hheld⟩ := TokenTotals.exists_ofList h.held_fits
    obtain ⟨produced, hproduced, hmade⟩ := TokenTotals.exists_ofList h.made_fits
    obtain ⟨burned, hburned, hburn⟩ := TokenTotals.exists_ofList h.burned_fits
    exact ⟨available, havailable, produced, hproduced, burned, hburned,
      (comparisons_iff hheld hmade hburn _).2 ⟨h.made_held, h.burned_held, h.conserved⟩⟩

/-- **The check of tokens is exact.**  It passes exactly when every sum over the inputs, the outputs
and what is burned is an amount, only tokens of the inputs are burned, only tokens of the inputs and
the one under the first box's id are made, and of every token of the inputs as much is made and
burned as there is.  So under the same id of the first box it passes for regrouped amounts too: how
they are split over entries, boxes and outputs makes no difference, nor does their order. -/
theorem checkBalance_exact (inputs : List Box) (outputs : List Candidate) (burn : List Token) :
    (checkBalance inputs outputs burn = .ok () ↔
      Balanced (inputs.head?.map Box.id) (Box.tokensIn inputs) (Candidate.tokensIn outputs) burn) ∧
    ∀ inputs' outputs' burn', inputs'.head?.map Box.id = inputs.head?.map Box.id →
      Regrouped (Box.tokensIn inputs) (Box.tokensIn inputs') →
      Regrouped (Candidate.tokensIn outputs) (Candidate.tokensIn outputs') →
      Regrouped burn burn' →
      (checkBalance inputs' outputs' burn' = .ok () ↔ checkBalance inputs outputs burn = .ok ()) := by
  refine ⟨checkBalance_eq_ok, fun inputs' outputs' burn' hfirst hheld hmade hburned => ?_⟩
  rw [checkBalance_eq_ok, checkBalance_eq_ok, hfirst]
  constructor
  · intro h
    exact h.regroup hheld.symm hmade.symm hburned.symm
  · intro h
    exact h.regroup hheld hmade hburned

end Check

/-! ## Ten coins in other boxes -/

/-- So many coins, under the least id. -/
def coins (n : UInt64) : Token := ⟨.zero 32, n⟩

/-- An output that anybody may spend. -/
def openOutput (tokens : List Token) : Candidate :=
  ⟨1, .new (.unary .boolToSigma (.const (.bool true))), tokens, [], 0⟩

/-- A box that anybody may spend. -/
def openBoxWith (tokens : List Token) : Box := ⟨openOutput tokens, .zero 32, 0⟩

/-- Ten coins of two boxes are eight in an output and two burned; the entries of the second box may
change places, and outputs and burned coins may be split. -/
theorem checkBalance_exact_tenCoins :
    checkBalance [openBoxWith [coins 5], openBoxWith [coins 4, coins 1]] [openOutput [coins 8]]
      [coins 2] = .ok () ∧
    checkBalance [openBoxWith [coins 5], openBoxWith [coins 1, coins 4]]
      [openOutput [coins 3], openOutput [coins 5]] [coins 1, coins 1] = .ok () := by
  have hheld : Regrouped [coins 5, coins 4, coins 1] [coins 5, coins 1, coins 4] :=
    regrouped_of_perm (.cons _ (.swap ..))
  have hmade : Regrouped [coins 8] [coins 3, coins 5] := regrouped_split rfl _ []
  have hburned : Regrouped [coins 2] [coins 1, coins 1] := regrouped_split rfl _ []
  have hpasses : checkBalance [openBoxWith [coins 5], openBoxWith [coins 4, coins 1]]
      [openOutput [coins 8]] [coins 2] = .ok () := by decide
  refine ⟨hpasses, ((checkBalance_exact _ _ _).2 _ _ _ ?_ ?_ ?_ ?_).2 hpasses⟩
  · rfl
  · exact hheld
  · exact hmade
  · exact hburned

end Covenant

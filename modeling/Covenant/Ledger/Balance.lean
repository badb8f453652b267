/-
  BALANCE — tokens are neither made nor lost.

  The outputs of a transaction must hold, of every token, what its inputs hold less what is burned.
  There is one exception: a transaction may mint one new token, whose id is that of the first box it
  spends.  Amounts are 64-bit numbers; a sum that leaves this range is an error and never
  wraps around.
-/
import Covenant.Ledger.Transaction
import Covenant.Reduction.Error

namespace Covenant

/-- Sums by token id, in the order of ids. -/
abbrev TokenTotals := List (TokenId × Nat)

/-- The largest amount. -/
def maxAmount : Nat := 0xffffffffffffffff

namespace TokenTotals

/-- The sum for a token, zero if it is not listed. -/
def amount (t : TokenTotals) (id : TokenId) : Nat := (t.lookup id).getD 0

/-- Whether a token is listed. -/
def lists (t : TokenTotals) (id : TokenId) : Bool := t.any fun e => e.1 == id

/-- Adds an amount to the sum of its token. -/
def add (id : TokenId) (amount : Nat) : TokenTotals → Except ReductionError TokenTotals
  | [] => .ok [(id, amount)]
  | (i, a) :: r =>
    if id = i then
      if maxAmount < a + amount then .error (.inconsistentTransaction .amountOverflow)
      else .ok ((i, a + amount) :: r)
    else if id.1 < i.1 then .ok ((id, amount) :: (i, a) :: r)
    else do
      let r ← add id amount r
      return (i, a) :: r

/-- The sums over a list of token amounts. -/
def ofList (ts : List Token) : Except ReductionError TokenTotals :=
  ts.foldlM (fun t e => add e.id e.amount.toNat t) []

end TokenTotals

/-- Compares what is spent and what becomes of it, for one token of the inputs. -/
def checkToken (produced burned : TokenTotals) (id : TokenId) (held : Nat) :
    Except ReductionError Unit :=
  let burn := burned.amount id
  let spent := produced.amount id + burn
  if maxAmount < spent then .error (.inconsistentTransaction .amountOverflow)
  else if held < spent then
    .error (.inconsistentTransaction (if 0 < burn then .overburned else .overdrawn))
  else if spent < held then .error (.inconsistentTransaction .surplus)
  else .ok ()

/-- Checks that tokens balance between the boxes spent, the outputs and what is burned. -/
def checkBalance [Suite] (inputs : List Box) (outputs : List Candidate) (burn : List Token) :
    Except ReductionError Unit := do
  let available ← TokenTotals.ofList (inputs.flatMap fun b => b.candidate.tokens)
  let produced ← TokenTotals.ofList (outputs.flatMap fun c => c.tokens)
  let burned ← TokenTotals.ofList burn
  let minted := inputs.head?.map Box.id
  if produced.any fun e => !available.lists e.1 && some e.1 != minted then
    throw (.inconsistentTransaction .mintedToken)
  if burned.any fun e => !available.lists e.1 then throw (.inconsistentTransaction .burnedToken)
  -- a minted token is in none of the inputs, so any amount of it will do
  available.forM fun e => checkToken produced burned e.1 e.2

end Covenant

/-
  METER — what an evaluation has spent, and what it may.

  Costs are 64-bit numbers whose sums stop at the largest one.  A charge that would take the total
  past the limit fails and leaves the total as it was.  Beside the total, a meter keeps a journal of
  the evaluation: the nodes entered, the items of collections that were paid for, and the values
  that came out, each with the total at that moment.
-/
import Covenant.Reduction.Error
import Covenant.Script.Value

namespace Covenant

/-! ## Prices -/

/-- Checking one discrete-logarithm leaf. -/
def dlogCost : Nat := 500

/-- Checking one Diffie–Hellman leaf. -/
def dhTupleCost : Nat := 900

/-- Each child of a connective in the produced proposition. -/
def childCost : Nat := 10

/-- Each item that a collection operation handles. -/
def itemCost : Nat := 2

/-- Each chunk of 64 octets that is hashed. -/
def chunkCost : Nat := 10

/-- Each octet of a script read from a variable. -/
def scriptByteCost : Nat := 1

/-- Number of 64-octet chunks of so many octets; at least one. -/
def hashChunks (n : Nat) : Nat := max ((n + 63) / 64) 1

/-- The price of checking a node of a proposition, without its children. -/
def Proposition.nodePrice : Proposition → UInt64
  | .trivial _ => 0
  | .leaf (.dlog _) => .ofNat dlogCost
  | .leaf (.dhTuple _ _ _ _) => .ofNat dhTupleCost
  | .node _ cs => .ofNat childCost * .ofNat cs.length

namespace Proposition

/-- Adds up the prices of the nodes on a stack and of those below them.  Children are put onto the
stack in their order, so the last one comes first. -/
@[semireducible] def addPrices (cost : UInt64) : List Proposition → UInt64
  | [] => cost
  | p :: stack => addPrices (cost + p.nodePrice) (p.children.reverse ++ stack)
termination_by stack => sizeAll stack
decreasing_by
  rw [sizeAll_append, sizeAll_reverse, sizeAll_cons, size_eq, Nat.add_assoc]
  exact Nat.lt_add_of_pos_left Nat.one_pos

end Proposition

/-- The cost of verifying a proof of a proposition, as a 64-bit number. -/
def Proposition.verificationCost (p : Proposition) : Nat := (addPrices 0 [p]).toNat

/-! ## Metering -/

/-- The largest cost. -/
def maxCost : Nat := 0xffffffffffffffff

/-- The sum of two costs, up to the largest one. -/
def addCost (a b : Nat) : Nat := min (a + b) maxCost

/-- The cost of some units at a price each, up to the largest one. -/
def unitsCost (units price : Nat) : Nat := min (units * price) maxCost

/-- Something an evaluation did. -/
inductive Step
  /-- Entered a node, after paying for it. -/
  | node (op : Opcode)
  /-- Paid for some items of a collection. -/
  | items (n : Nat)
  /-- Computed or passed on a value when so much was spent. -/
  | value (v : Value) (spent : Nat)

/-- A running total with its limit, and the journal of what was done, newest first. -/
structure Meter where
  spent : Nat
  limit : Nat
  journal : List Step

namespace Meter

/-- A meter at zero. -/
def new (limit : UInt64) : Meter := ⟨0, limit.toNat, []⟩

/-- Adds a cost, unless that would take the total past the limit. -/
def add (m : Meter) (cost : Nat) : Except ReductionError Meter :=
  let next := addCost m.spent cost
  -- under the largest limit nothing fails: the sum never passes the largest cost
  if m.limit < next then .error (.costLimitExceeded next m.limit) else .ok { m with spent := next }

/-- Adds the cost of some units at a price each. -/
def addUnits (m : Meter) (units price : Nat) : Except ReductionError Meter :=
  m.add (unitsCost units price)

/-- Writes a step into the journal. -/
def note (m : Meter) (s : Step) : Meter := { m with journal := s :: m.journal }

end Meter

end Covenant

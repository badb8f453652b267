/-
  CONTEXT — what a condition can see.

  All inputs of a transaction share the boxes and the state of the chain; each has its own position
  and its own variables.
-/
import Covenant.Ledger.Extension

namespace Covenant

/-- The recent state of a chain. -/
structure ChainState where
  /-- Headers of mined blocks, the most recent first. -/
  headers : List Header
  /-- The state before the block being assembled. -/
  digest : StateDigest
  preHeader : PreHeader

/-- What the inputs of one transaction share. -/
structure TxContext where
  inputs : List Box
  dataInputs : List Box
  outputs : List Box
  state : ChainState

/-- What the condition of one input sees. -/
structure Context where
  tx : TxContext
  /-- The position of the box among the inputs. -/
  selfIndex : Nat
  extension : Extension
  /-- The newest script version that the network accepts. -/
  activatedVersion : UInt8

/-- The context of the input at a position. -/
def TxContext.forInput (tx : TxContext) (i : Nat) (x : Extension) : Context :=
  ⟨tx, i, x, tx.state.preHeader.activatedVersion⟩

/-- The box whose condition is reduced. -/
def Context.selfBox? (c : Context) : Option Box := c.tx.inputs[c.selfIndex]?

end Covenant

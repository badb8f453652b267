/-
  ERROR — why a condition was not reduced.

  Each kind of failure lists its causes; `message` gives the wording.
-/
namespace Covenant

/-- A condition that is wrong in itself: ill-typed, or referring to what is not there. -/
inductive ConditionDefect
  | notAProposition | propositionTooDeep | tooDeep | placeholderRange | unboundVariable | longTuple
  | variableType | registerType | notAHeader | notAPreHeader | notAStateTree | notANumber
  | notASigmaProp | notASigmaPropColl | wideThreshold | fieldRange | notATuple | nestedScript
  | variableNotBytes | variableNotScript | scriptType | functionArity | argumentType | resultType
  | predicateResult | notABoolean | notAnInt | notAGroupElement | notABox | notAColl | notBytes
  | notAnOption | notABooleanColl | wideConnective | operandTypes | notNumbers | itemType
deriving DecidableEq, Repr

/-- The wording of a condition's defect. -/
def ConditionDefect.text : ConditionDefect → String
  | notAProposition => "condition must evaluate to a boolean or a sigma proposition"
  | propositionTooDeep => "proposition nested too deeply"
  | tooDeep => "condition nested too deeply"
  | placeholderRange => "constant placeholder out of range"
  | unboundVariable => "unbound variable"
  | longTuple => "tuple has too many items"
  | variableType => "context variable has a different type"
  | registerType => "register holds a different type"
  | notAHeader => "expected a header"
  | notAPreHeader => "expected a pre-header"
  | notAStateTree => "expected a state tree"
  | notANumber => "expected a number"
  | notASigmaProp => "expected a sigma proposition"
  | notASigmaPropColl => "expected a collection of sigma propositions"
  | wideThreshold => "too many children in a threshold"
  | fieldRange => "tuple field out of range"
  | notATuple => "expected a tuple"
  | nestedScript => "scripts read from the context cannot read further scripts"
  | variableNotBytes => "context variable does not hold bytes"
  | variableNotScript => "context variable does not hold a script"
  | scriptType => "script in the context has a different type"
  | functionArity => "collection lambdas take one argument"
  | argumentType => "lambda argument has a different type"
  | resultType => "lambda result has a different type"
  | predicateResult => "predicate must return a boolean"
  | notABoolean => "expected a boolean"
  | notAnInt => "expected an Int"
  | notAGroupElement => "expected a group element"
  | notABox => "expected a box"
  | notAColl => "expected a collection"
  | notBytes => "expected a byte collection"
  | notAnOption => "expected an option"
  | notABooleanColl => "expected a collection of booleans"
  | wideConnective => "too many children in a sigma connective"
  | operandTypes => "operands have different types"
  | notNumbers => "expected numbers"
  | itemType => "type mismatch"

/-- Something newer than what is known or active. -/
inductive VersionGap
  | unknown | notActivated | scriptOpcode
deriving DecidableEq, Repr

/-- The wording of a version gap. -/
def VersionGap.text : VersionGap → String
  | unknown => "condition uses a script version or opcode this library does not know"
  | notActivated => "script version is not activated"
  | scriptOpcode => "script in the context uses an opcode that is not active"

/-- A well-typed operation without a result. -/
inductive RuntimeFailure
  | overflow | indexRange | emptyOption | missingVariable | divisionByZero | notAnIntValue
  | notALongValue
deriving DecidableEq, Repr

/-- The wording of a failed operation. -/
def RuntimeFailure.text : RuntimeFailure → String
  | overflow => "arithmetic overflow"
  | indexRange => "index out of bounds"
  | emptyOption => "get on an empty option"
  | missingVariable => "context variable is missing"
  | divisionByZero => "division by zero"
  | notAnIntValue => "value does not fit in an Int"
  | notALongValue => "value does not fit in a Long"

/-- Boxes, ids and amounts that do not fit together. -/
inductive Inconsistency
  | selfIndex | mintedToken | burnedToken | amountOverflow | overburned | overdrawn | surplus
  | boxesToSpend | dataBoxes | tooManyOutputs | outputTokens | outputRegisters | inputIndex
  | reducedInputs
deriving DecidableEq, Repr

/-- The wording of an inconsistency. -/
def Inconsistency.text : Inconsistency → String
  | selfIndex => "self index out of range"
  | mintedToken => "output token is neither spent nor minted"
  | burnedToken => "burned token is not among the inputs"
  | amountOverflow => "token amount overflow"
  | overburned => "burning more tokens than available"
  | overdrawn => "outputs hold more tokens than the inputs"
  | surplus => "token surplus is neither spent nor burned"
  | boxesToSpend => "boxes to spend do not match the inputs"
  | dataBoxes => "data boxes do not match the data inputs"
  | tooManyOutputs => "too many outputs"
  | outputTokens => "output holds too many tokens"
  | outputRegisters => "output sets too many registers"
  | inputIndex => "input index out of range"
  | reducedInputs => "reduced inputs do not match the transaction"

/-- Why a condition or transaction was not reduced. -/
inductive ReductionError
  /-- The next charge would take the cost past its limit. -/
  | costLimitExceeded (cost limit : Nat)
  | malformedCondition (d : ConditionDefect)
  | unsupportedOperation (g : VersionGap)
  | evaluationFailed (f : RuntimeFailure)
  | inconsistentTransaction (i : Inconsistency)
deriving DecidableEq, Repr

/-- The wording of a failed reduction. -/
def ReductionError.message : ReductionError → String
  | costLimitExceeded cost limit => s!"Cost {cost} exceeds the limit of {limit}"
  | malformedCondition d => "Malformed condition: " ++ d.text
  | unsupportedOperation g => "Unsupported operation: " ++ g.text
  | evaluationFailed f => "Evaluation failed: " ++ f.text
  | inconsistentTransaction i => "Inconsistent transaction: " ++ i.text

end Covenant

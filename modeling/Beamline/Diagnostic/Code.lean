import Beamline.Text.Spelling

/-!
# Diagnostic codes

Every condition that is reported has a code for searching. The first digit of a code tells the
area: 1 definitions, 2 evaluation, 3 attributes, 4 beam lines, 5 comments, 9 internal faults.

* `ofText?_text`: the text of a code is read back.
-/

namespace Beamline.Diagnostic

/-- The code of a reported condition. -/
inductive Code where
  /-- A constant is defined again. -/
  | constantRedefined
  /-- A constant is refused because a variable has the name. -/
  | constantIsVariable
  /-- A variable is refused because a constant has the name. -/
  | variableIsConstant
  /-- An element is defined again. -/
  | elementRedefined
  /-- A line is defined again. -/
  | lineRedefined
  /-- A constant that does not exist is read. -/
  | constantUndefined
  /-- A variable that does not exist yet is named. -/
  | variableUndefined
  /-- The length of an element that does not exist yet is named. -/
  | elementUndefined
  /-- A text stands where a number is needed. -/
  | textInArithmetic
  /-- An evaluation goes too deep. -/
  | nestingTooDeep
  /-- The kind of an element does not have an attribute. -/
  | unknownAttribute
  /-- An attribute without a default is written without a value. -/
  | attributeNeedsValue
  /-- An index into a transfer map is not from 1 to 6. -/
  | indexOutOfRange
  /-- An element that is no matrix has no transfer map. -/
  | notAMatrix
  /-- A member of a line is neither an element nor a line. -/
  | memberUndefined
  /-- A repetition is longer than its bound. -/
  | lineTooLong
  /-- A comment ends that was not begun. -/
  | unmatchedEnd
  /-- A stored expression is not where it should be. -/
  | internalFault
  deriving DecidableEq

namespace Code

/-- All codes, in the order of their texts. -/
def all : List Code :=
  [.constantRedefined, .constantIsVariable, .variableIsConstant, .elementRedefined,
    .lineRedefined, .constantUndefined, .variableUndefined, .elementUndefined, .textInArithmetic,
    .nestingTooDeep, .unknownAttribute, .attributeNeedsValue, .indexOutOfRange, .notAMatrix,
    .memberUndefined, .lineTooLong, .unmatchedEnd, .internalFault]

/-- The text of a code. -/
def text : Code → String
  | .constantRedefined => "E1001"
  | .constantIsVariable => "E1002"
  | .variableIsConstant => "E1003"
  | .elementRedefined => "E1004"
  | .lineRedefined => "E1005"
  | .constantUndefined => "E2001"
  | .variableUndefined => "E2002"
  | .elementUndefined => "E2003"
  | .textInArithmetic => "E2004"
  | .nestingTooDeep => "E2005"
  | .unknownAttribute => "E3001"
  | .attributeNeedsValue => "E3002"
  | .indexOutOfRange => "E3003"
  | .notAMatrix => "E3004"
  | .memberUndefined => "E4001"
  | .lineTooLong => "E4002"
  | .unmatchedEnd => "E5001"
  | .internalFault => "E9001"

/-- The code that `word` spells. -/
def ofText? (word : String) : Option Code :=
  all.find? fun code => code.text = Text.normalize word

/-- The text of a code is read back. -/
@[simp]
theorem ofText?_text (code : Code) : ofText? code.text = some code := by
  cases code <;> decide +kernel

/-- The place of a code among all. -/
def index (code : Code) : Nat :=
  all.idxOf code

/-- Whether the condition ends a run. -/
def isFatal : Code → Bool
  | .textInArithmetic | .lineTooLong | .internalFault => true
  | _ => false

/-- Whether the condition is no fault of the input. -/
def isInternal : Code → Bool
  | .internalFault => true
  | _ => false

end Code

end Beamline.Diagnostic

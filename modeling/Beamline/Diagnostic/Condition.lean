import Beamline.Diagnostic.Basic
import Beamline.Element.Basic

/-!
# Conditions

The conditions that a run reports, with what each is about, and the one place where they are put
into words.

* `isFatal_diagnostic`: a condition is fatal exactly if its code is.
-/

namespace Beamline.Diagnostic

open Source (Position)

/-- What is reported. -/
inductive Condition where
  /-- A constant is defined again; the new value holds. -/
  | constantRedefined (name : Name)
  /-- A variable has the name; the constant is not defined. -/
  | constantIsVariable (name : Name)
  /-- A constant has the name; the variable is not defined. -/
  | variableIsConstant (name : Name)
  /-- An element is defined again; the new one holds. -/
  | elementRedefined (name : Name)
  /-- A line is defined again; the new one holds. -/
  | lineRedefined (name : Name)
  /-- No constant has the name; zero is used. -/
  | constantUndefined (name : Name)
  /-- No variable has the name yet. -/
  | variableUndefined (name : Name)
  /-- No element has the name yet. -/
  | elementUndefined (name : Name)
  /-- A text stands where a number is needed. The symbol is the identifier that has the text as
  its value, or the text in quotes. -/
  | textInArithmetic (symbol : String)
  /-- An evaluation reaches the limit on nesting; zero is used. -/
  | nestingTooDeep (limit : Nat)
  /-- The kind has no such attribute; it is left out. -/
  | unknownAttribute (kind : Element.Kind) (key : String)
  /-- The attribute has no default; it is left out. -/
  | attributeNeedsValue (kind : Element.Kind) (key : String)
  /-- The index is not from 1 to 6; the entry is left out. -/
  | indexOutOfRange (index : String)
  /-- The element has no transfer map; the entry is left out. -/
  | notAMatrix (name : Name) (kind : Element.Kind)
  /-- The member is neither an element nor a line. -/
  | memberUndefined (name : Name)
  /-- A repetition is longer than its bound. -/
  | lineTooLong (limit : Nat)
  /-- A comment ends that was not begun. -/
  | unmatchedEnd
  /-- A stored expression is not where it should be. -/
  | internalFault (description : String)
  deriving DecidableEq

namespace Condition

/-- The code of a condition. -/
def code : Condition → Code
  | .constantRedefined _ => .constantRedefined
  | .constantIsVariable _ => .constantIsVariable
  | .variableIsConstant _ => .variableIsConstant
  | .elementRedefined _ => .elementRedefined
  | .lineRedefined _ => .lineRedefined
  | .constantUndefined _ => .constantUndefined
  | .variableUndefined _ => .variableUndefined
  | .elementUndefined _ => .elementUndefined
  | .textInArithmetic _ => .textInArithmetic
  | .nestingTooDeep _ => .nestingTooDeep
  | .unknownAttribute .. => .unknownAttribute
  | .attributeNeedsValue .. => .attributeNeedsValue
  | .indexOutOfRange _ => .indexOutOfRange
  | .notAMatrix .. => .notAMatrix
  | .memberUndefined _ => .memberUndefined
  | .lineTooLong _ => .lineTooLong
  | .unmatchedEnd => .unmatchedEnd
  | .internalFault _ => .internalFault

/-- A condition in words. -/
def message : Condition → String
  | .constantRedefined name => s!"constant {name.text} is redefined"
  | .constantIsVariable name =>
    s!"{name.text} is already defined as a variable, constant not defined"
  | .variableIsConstant name =>
    s!"{name.text} is already defined as a constant, variable not defined"
  | .elementRedefined name => s!"element {name.text} is redefined"
  | .lineRedefined name => s!"line {name.text} is redefined"
  | .constantUndefined name => s!"constant {name.text} is undefined"
  | .variableUndefined name => s!"{name.text} is not yet defined"
  | .elementUndefined name => s!"element {name.text} is not yet defined"
  | .textInArithmetic symbol => s!"string constant {symbol} used in an algebraic expression"
  | .nestingTooDeep limit => s!"expression nesting exceeds {limit} levels"
  | .unknownAttribute kind key =>
    (Element.Refusal.unknownAttribute kind key).message ++ ", ignored"
  | .attributeNeedsValue kind key => (Element.Refusal.noDefault kind key).message ++ ", ignored"
  | .indexOutOfRange index => s!"matrix index {index} out of range 1..6, ignored"
  | .notAMatrix name kind =>
    s!"{kind.keyword} {name.text} has no transfer matrix, entry ignored"
  | .memberUndefined name => s!"beam element/line {name.text} not yet defined"
  | .lineTooLong limit => s!"repeated line would exceed {limit} entries"
  | .unmatchedEnd => "ENDCOMMENT without matching COMMENT"
  | .internalFault description => s!"internal error: {description}"

/-- What is added to the message. -/
def notes : Condition → List String
  | .constantUndefined _ => ["using 0"]
  | .nestingTooDeep _ => ["a variable probably refers to itself; using 0"]
  | _ => []

/-- The diagnostic of a condition met at `pos`. -/
def diagnostic (c : Condition) (pos : Position) : Diagnostic where
  code := c.code
  severity := if c.code.isFatal then .fatal else .warning
  message := c.message
  pos := pos
  notes := c.notes

/-- A condition is fatal exactly if its code is. -/
@[simp]
theorem isFatal_diagnostic (c : Condition) (pos : Position) :
    (c.diagnostic pos).isFatal = c.code.isFatal := by
  cases h : c.code.isFatal <;> simp [diagnostic, isFatal, h]

@[simp]
theorem pos_diagnostic (c : Condition) (pos : Position) : (c.diagnostic pos).pos = pos :=
  rfl

end Condition

end Beamline.Diagnostic

namespace Beamline.Element

/-- What is reported when an item of the element `name` is refused. -/
def Refusal.condition (name : Name) : Refusal → Diagnostic.Condition
  | .unknownAttribute kind key => .unknownAttribute kind key
  | .noDefault kind key => .attributeNeedsValue kind key
  | .noMap kind => .notAMatrix name kind

end Beamline.Element

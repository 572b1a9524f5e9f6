import Beamline.Statement
import Beamline.FatalError
import Beamline.Proofs.Plain.Records

/-!
# Lowering to terms

How a formula becomes a term when nothing is stored: each identifier is told apart by the constants
of the moment, and a text where a number is needed ends the run. Warnings are raised in the order
in which the formula is read. Lowering looks at names only: which constants there are with which
values, and which names belong to variables and elements.
-/

namespace Beamline.Plain

open Source (Position)
open Diagnostic (Condition)
open Beamline.Expr (Formula Term)

variable {ε : Type}

/-! ## Errors -/

/-- What ends a run on a plain deck. -/
inductive Error where
  /-- A text stands where a number is needed. -/
  | textInArithmetic (symbol : String) (pos : Position)
  /-- A repetition is longer than its bound. -/
  | lineTooLong (limit : Nat) (pos : Position)
  /-- An evaluation without a limit on its depth does not come to an end. -/
  | endless
  deriving DecidableEq

/-- The fatal error that is reported. An evaluation without end is blamed on no handle in
particular. -/
def Error.fatal : Error → FatalError
  | .textInArithmetic symbol pos => .textInArithmetic symbol pos
  | .lineTooLong limit pos => .lineTooLong limit pos
  | .endless => .fault (.endless ⟨0, 0⟩)

/-- A step that can raise diagnostics. -/
abbrev Step := ExceptT Error (StateM (Array Diagnostic))

/-- Raises a condition. -/
def report (condition : Condition) (pos : Position) : Step Unit :=
  modify (·.push (condition.diagnostic pos))

/-! ## Formulas -/

/-- What lowering depends on. -/
structure LoweringScope where
  /-- The values of the constants. -/
  constant? : Name → Option Value
  /-- Which names are variables. -/
  isVariable : Name → Bool
  /-- Which names are elements. -/
  isElement : Name → Bool
  /-- The position of the statement. -/
  pos : Position
  /-- Whether identifiers other than constants count for nothing. -/
  constantsOnly : Bool

/-- What lowering sees of the symbols. -/
def Symbols.loweringScope (symbols : Symbols ε) (pos : Position) (constantsOnly : Bool) :
    LoweringScope where
  constant? name := (symbols.consts.get? name).map Constant.value
  isVariable := symbols.vars.contains
  isElement := symbols.elements.contains
  pos := pos
  constantsOnly := constantsOnly

namespace LoweringScope

/-- The term of an identifier. `arithmetic` says that a number is needed. -/
def classify (scope : LoweringScope) (name : Name) (arithmetic : Bool) : Step Term := do
  match scope.constant? name with
  | some value =>
    -- the kind of the value decides, not the place
    if !value.isText then
      return .numberConstant name
    else if arithmetic then
      throw (.textInArithmetic name.text scope.pos)
    else
      return .textConstant name
  | none =>
    -- a constant may not hang on what can change later
    if scope.constantsOnly then
      report (.constantUndefined name) scope.pos
      return .number 0.0
    else
      unless scope.isVariable name do
        report (.variableUndefined name) scope.pos
      return .variable name

/-- The term of a formula. `arithmetic` says that a number is needed, which holds for the operands
of operators and functions; parentheses pass it on. -/
def lower (scope : LoweringScope) : Formula → (arithmetic : Bool) → Step Term
  | .number x, _ => return .number x
  | .text content, arithmetic => do
    if arithmetic then
      throw (.textInArithmetic (Value.quote content) scope.pos)
    return .text content
  | .name raw, arithmetic => scope.classify (Name.ofText raw) arithmetic
  | .lengthOf raw, _ => do
    let name := Name.ofText raw
    unless scope.isElement name do
      report (.elementUndefined name) scope.pos
    return .lengthOf name
  | .parens inner, arithmetic => do
    return .parens (← lower scope inner arithmetic)
  | .signed sign operand, _ => do
    return .signed sign (← lower scope operand true)
  | .binary op left right, _ => do
    -- the left operand is read first, and so are its warnings
    let left ← lower scope left true
    let right ← lower scope right true
    return .binary op left right
  | .call f argument, _ => do
    return .call f (← lower scope argument true)

end LoweringScope

end Beamline.Plain
